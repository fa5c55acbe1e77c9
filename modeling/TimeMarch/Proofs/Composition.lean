import TimeMarch.Proofs.Translation

/-!
# From Requests to Schedules

Lowering is put together from a few requests: for a place in a pool, for the slot of a name, for the
offset of a jump. `Composes` says that a property of lowerings holds of those requests that are the
same for every name, and that it passes from parts to the whole. Then it holds of an expression if
it holds of the names that are mentioned there, and likewise of an instruction and of a schedule.
The walk over all of these is made here, once for every such property.
-/

namespace TimeMarch

/-! ### Mentions and literals, part by part -/

namespace Expr

variable (op : BinaryOp) (c e y n : Expr)

lemma mentions_binary : (binary op y n).mentions = y.mentions ++ n.mentions :=
  mentionsOnto_eq y _

lemma mentions_cond : (cond c y n).mentions = c.mentions ++ (y.mentions ++ n.mentions) :=
  (mentionsOnto_eq c _).trans (congrArg _ (mentionsOnto_eq y _))

lemma mentions_call (f : String) (args : List Expr) (keywords : List (String × Expr)) :
    (call f args keywords).mentions =
      .call f :: (listMentionsOnto args [] ++ keywordMentionsOnto keywords []) :=
  congrArg _ (listMentionsOnto_eq args _)

lemma listMentionsOnto_cons (l : List Expr) :
    listMentionsOnto (e :: l) [] = e.mentions ++ listMentionsOnto l [] :=
  mentionsOnto_eq e _

lemma keywordMentionsOnto_cons (name : String) (l : List (String × Expr)) :
    keywordMentionsOnto ((name, e) :: l) [] = e.mentions ++ keywordMentionsOnto l [] :=
  mentionsOnto_eq e _

end Expr

section

variable {i : Instruction}

lemma Lowering.mem_reads {x : String} :
    x ∈ i.reads ↔ .read x ∈ Expr.listMentionsOnto i.expressions [] := by
  rw [Instruction.reads, NameSet.mem_ofList, List.mem_filterMap]
  constructor
  · rintro ⟨m, hm, hx⟩
    cases m with
    | read y =>
      obtain rfl : y = x := Option.some.inj hx
      exact hm
    | call f => cases hx
  · intro h
    exact ⟨_, h, rfl⟩

lemma Instruction.mem_calls {f : String} :
    f ∈ i.calls ↔ .call f ∈ Expr.listMentionsOnto i.expressions [] := by
  rw [calls, NameSet.mem_ofList, List.mem_filterMap]
  constructor
  · rintro ⟨m, hm, hf⟩
    cases m with
    | read x => cases hf
    | call g =>
      obtain rfl : g = f := Option.some.inj hf
      exact hm
  · intro h
    exact ⟨_, h, rfl⟩

end

def InstructionSet.literalsOf (s : InstructionSet) (id : String) : List Value :=
  ((s.get? id).map Instruction.literals).getD []

lemma InstructionSet.literalsOf_eq {s : InstructionSet} {id : String} {i : Instruction}
    (hi : s.get? id = some i) : s.literalsOf id = i.literals := by
  rw [literalsOf, hi]
  rfl

mutual

def Step.literals (s : InstructionSet) : Step → List Value
  | .run id => s.literalsOf id
  | .branch id yes no =>
    s.literalsOf id ++ (Step.listLiterals s yes ++ Step.listLiterals s no)

def Step.listLiterals (s : InstructionSet) : List Step → List Value
  | [] => []
  | step :: rest => step.literals s ++ Step.listLiterals s rest

end

namespace Lowering

/-! ### Properties that pass from parts to the whole -/

/-- A property of lowerings that passes from parts to the whole. It may depend on the literals that
are lowered on the way. -/
structure Composes (P : ∀ α : Type, List Value → Lowering α → Prop) : Prop where
  pure : ∀ {α : Type} (a : α), P α [] (pure a)
  bind : ∀ {α β : Type} {l l' : List Value} {x : Lowering α} {f : α → Lowering β},
    P α l x → (∀ a, P β l' (f a)) → P β (l ++ l') (x >>= f)
  literal : ∀ v, P ℕ [v] (addLiteral v)
  keywordSet : ∀ names, P ℕ [] (addKeywordSet names)
  raise : ∀ kind message, P ℕ [] (addRaise kind message)
  jumpOver : ∀ distance, P ℕ [] (jumpOver distance)
  /-- A call with more arguments than can be counted, whatever would come behind it. -/
  tooMany : ∀ {α : Type} (f : PUnit → Lowering α),
    P α [] (throw (.tableOverflow .argument) >>= f)

variable {P : ∀ α : Type, List Value → Lowering α → Prop} {p : Program}
  {reserved : Std.TreeSet String} {id : String}

variable (P reserved id) in
def Allows : Mention → Prop
  | .read x => P Slot [] (variableSlot reserved id x)
  | .call f => P ℕ [] (intern reserved .function f)

variable (P p reserved) in
/-- The property holds of all requests that are made for the names in an instruction. -/
structure AllowsAll (i : Instruction) : Prop where
  mention : ∀ m ∈ Expr.listMentionsOnto i.expressions [], Allows P reserved i.id m
  assignee : ∀ x, i.assignee? = some x → Allows P reserved i.id (.read x)
  label : ∀ time timeId e component, i.action = .emit time timeId e component →
    ∀ l, P ℕ [] (intern reserved .label l)
  transition : ∀ next, i.action = .transition next → P ℕ [] (liftM (stateIndex p next))

lemma AllowsAll.of_forall {i : Instruction}
    (hslot : ∀ x, P Slot [] (variableSlot reserved i.id x))
    (hfunction : ∀ f, P ℕ [] (intern reserved .function f))
    (hlabel : ∀ l, P ℕ [] (intern reserved .label l))
    (hindex : ∀ next, P ℕ [] (liftM (stateIndex p next))) : AllowsAll P p reserved i where
  mention m _ := by
    cases m with
    | read x => exact hslot x
    | call f => exact hfunction f
  assignee x _ := hslot x
  label _ _ _ _ _ l := hlabel l
  transition next _ := hindex next

namespace Composes

section

variable {α β : Type} {l : List Value} {x : Lowering α} {f : α → Lowering β}

lemma andThen (h : Composes P) (hx : P α l x) (hf : ∀ a, P β [] (f a)) : P β l (x >>= f) := by
  have hbind := h.bind hx hf
  rwa [List.append_nil] at hbind

lemma forM (h : Composes P) {l : List α} {f : α → Lowering Unit} (hf : ∀ a ∈ l, P Unit [] (f a)) :
    P Unit [] (l.forM f) := by
  induction l with
  | nil => exact h.pure ()
  | cons a l ih =>
    rw [List.forall_mem_cons] at hf
    exact h.andThen hf.1 fun _ => ih hf.2

lemma discard (h : Composes P) (hx : P α [] x) : P Unit [] (discard x) :=
  h.andThen hx fun _ => h.pure ()

end

/-! ### Expressions -/

mutual

lemma expr (h : Composes P) (e : Expr) (hm : ∀ m ∈ e.mentions, Allows P reserved id m) :
    P Fragment e.literals (expr reserved id e) := by
  cases e with
  | literal v =>
    rw [Lowering.expr, Expr.literals]
    exact h.andThen (h.literal v) fun i => h.pure _
  | var x =>
    rw [Lowering.expr, Expr.literals]
    have hx : Allows P reserved id (.read x) := hm _ (by simp [Expr.mentions, Expr.mentionsOnto])
    exact h.andThen hx fun slot => h.pure _
  | unary op x =>
    rw [Lowering.expr, Expr.literals]
    exact h.andThen (h.expr x hm) fun code => h.pure _
  | binary op l r =>
    rw [Lowering.expr, Expr.literals]
    simp only [Expr.mentions_binary, List.forall_mem_append] at hm
    exact h.bind (h.expr l hm.1) fun lcode => h.andThen (h.expr r hm.2) fun rcode => h.pure _
  | call f args keywords =>
    rw [Lowering.expr, Expr.literals]
    simp only [Expr.mentions_call, List.forall_mem_cons, List.forall_mem_append] at hm
    obtain ⟨hf, hargs, hkeywords⟩ := hm
    refine h.bind (h.exprs args hargs) fun acode =>
      h.andThen (h.keywordExprs keywords hkeywords) fun kcode => ?_
    dsimp only
    split
    · exact h.tooMany _
    · split
      · exact h.andThen (h.pure none) fun names => h.andThen hf fun i => h.pure _
      · exact h.andThen (h.andThen (h.keywordSet _) fun i => h.pure _) fun names =>
          h.andThen hf fun i => h.pure _
  | cond c y n =>
    rw [Lowering.expr, Expr.literals]
    simp only [Expr.mentions_cond, List.forall_mem_append] at hm
    exact h.bind (h.expr c hm.1) fun ccode => h.bind (h.expr y hm.2.1) fun ycode =>
      h.bind (h.jumpOver _) fun toElse => h.andThen (h.expr n hm.2.2) fun ncode =>
        h.andThen (h.jumpOver _) fun toEnd => h.pure _

lemma exprs (h : Composes P) (l : List Expr)
    (hm : ∀ m ∈ Expr.listMentionsOnto l [], Allows P reserved id m) :
    P Fragment (Expr.listLiterals l) (exprs reserved id l) := by
  cases l with
  | nil =>
    rw [Lowering.exprs]
    exact h.pure _
  | cons e l =>
    rw [Lowering.exprs, Expr.listLiterals]
    simp only [Expr.listMentionsOnto_cons, List.forall_mem_append] at hm
    exact h.bind (h.expr e hm.1) fun ecode => h.andThen (h.exprs l hm.2) fun lcode => h.pure _

lemma keywordExprs (h : Composes P) (l : List (String × Expr))
    (hm : ∀ m ∈ Expr.keywordMentionsOnto l [], Allows P reserved id m) :
    P Fragment (Expr.keywordLiterals l) (keywordExprs reserved id l) := by
  cases l with
  | nil =>
    rw [Lowering.keywordExprs]
    exact h.pure _
  | cons entry l =>
    obtain ⟨name, e⟩ := entry
    rw [Lowering.keywordExprs, Expr.keywordLiterals]
    simp only [Expr.keywordMentionsOnto_cons, List.forall_mem_append] at hm
    exact h.bind (h.expr e hm.1) fun ecode =>
      h.andThen (h.keywordExprs l hm.2) fun lcode => h.pure _

end

/-! ### Instructions and schedules -/

section

variable {i : Instruction}

lemma internNames (h : Composes P) (hi : AllowsAll P p reserved i) :
    P Unit [] (internNames reserved i) := by
  unfold Lowering.internNames
  refine h.andThen (h.forM fun x hx => h.discard ?_) fun _ => h.forM fun f hf => h.discard ?_
  · rw [NameSet.mem_toList, NameSet.mem_ofList, List.mem_append, Option.mem_toList] at hx
    rcases hx with hx | hx
    · exact hi.mention (.read x) (mem_reads.1 hx)
    · exact hi.assignee x hx
  · exact hi.mention (.call f) (Instruction.mem_calls.1 hf)

lemma instruction (h : Composes P) (hi : AllowsAll P p reserved i) (hplain : i.arms? = none) :
    P Fragment i.literals (instruction p reserved i) := by
  obtain ⟨id, dependsOn, action⟩ := i
  have hm := hi.mention
  cases action with
  | assign x e =>
    simp only [Instruction.expressions, Expr.listMentionsOnto_cons, List.forall_mem_append] at hm
    have hliterals : Instruction.literals ⟨id, dependsOn, .assign x e⟩ = e.literals := by
      simp [Instruction.literals, Instruction.expressions, Expr.listLiterals]
    rw [hliterals]
    exact h.andThen (h.expr e hm.1) fun code =>
      h.andThen (hi.assignee x rfl) fun slot => h.pure _
  | branch c y n => cases hplain
  | emit time timeId e component =>
    simp only [Instruction.expressions, Expr.listMentionsOnto_cons, List.forall_mem_append] at hm
    have hliterals : Instruction.literals ⟨id, dependsOn, .emit time timeId e component⟩ =
        time.literals ++ e.literals := by
      simp [Instruction.literals, Instruction.expressions, Expr.listLiterals]
    have hlabel := hi.label time timeId e component rfl
    rw [hliterals]
    exact h.bind (h.expr time hm.1) fun tcode => h.andThen (h.expr e hm.2.1) fun ecode =>
      h.andThen (hlabel component) fun j => h.andThen (hlabel timeId) fun k => h.pure _
  | abort => exact h.pure _
  | raise kind message => exact h.andThen (h.raise kind message) fun j => h.pure _
  | transition next => exact h.andThen (hi.transition next rfl) fun j => h.pure _

end

/-- **What holds of the requests holds of the schedule.** -/
theorem steps (h : Composes P) {state : String} {l : List Step}
    (hl : Schedule.Shaped p.instructions l)
    (hall : ∀ id ∈ Step.idsOf l, ∀ i, p.instructions.get? id = some i → AllowsAll P p reserved i) :
    P Fragment (Step.listLiterals p.instructions l) (steps p reserved state l) := by
  induction hl with
  | nil =>
    rw [Lowering.steps]
    exact h.pure _
  | @run id i rest hi harms _ ih =>
    simp only [Step.idsOf, Step.ids, List.forall_mem_append, List.forall_mem_singleton] at hall
    have hallows := hall.1 i hi
    rw [Lowering.steps, step, scheduled_eq hi, pure_bind, Step.listLiterals, Step.literals,
      InstructionSet.literalsOf_eq hi]
    exact h.bind (h.bind (h.internNames hallows) fun _ => h.instruction hallows harms) fun code =>
      h.andThen (ih hall.2) fun k => h.pure _
  | @branch id i arms yes no rest hi harms _ _ _ ihyes ihno ihrest =>
    simp only [Step.idsOf, Step.ids, List.forall_mem_append, List.forall_mem_singleton] at hall
    obtain ⟨⟨⟨hyes, hno⟩, hid⟩, hrest⟩ := hall
    have hallows := hid i hi
    rw [Lowering.steps, step, scheduled_eq hi, pure_bind, Step.listLiterals, Step.literals,
      InstructionSet.literalsOf_eq hi]
    refine h.bind ?_ fun code => h.andThen (ihrest hrest) fun k => h.pure _
    refine h.bind (l := []) (h.internNames hallows) fun _ =>
      h.bind (h.exprs i.expressions hallows.mention) fun ccode =>
        h.bind (ihyes hyes) fun ycode => ?_
    split
    · -- without a second arm there is nothing of it to lower
      rename_i hnone
      obtain rfl := List.isEmpty_iff.1 hnone
      exact h.andThen (h.jumpOver _) fun toEnd => h.pure _
    · exact h.bind (h.jumpOver _) fun toElse => h.andThen (ihno hno) fun ncode =>
        h.andThen (h.jumpOver _) fun toEnd => h.pure _

end Composes

end Lowering

end TimeMarch
