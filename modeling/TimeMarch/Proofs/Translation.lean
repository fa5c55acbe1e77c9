import TimeMarch.Proofs.Acceptance
import TimeMarch.Proofs.Scopes
import TimeMarch.Proofs.Units

/-!
# What Code Stands For

`ExprCode` relates a row of expressions to the operations that compute their values one after the
other, `ActionCode` an action to the operations that carry it out, and `StepCode` the steps of a
schedule to theirs. All three speak of one fixed scope, in which the operands are looked up, and do
not mention how the code was made. That what lowering makes is related to what it was made from, is
the content of this file.
-/

namespace TimeMarch

deriving instance DecidableEq for Value

namespace Expr

mutual

def literals : Expr → List Value
  | literal v => [v]
  | var _ => []
  | unary _ x => x.literals
  | binary _ l r => l.literals ++ r.literals
  | call _ args keywords => listLiterals args ++ keywordLiterals keywords
  | cond c y n => c.literals ++ (y.literals ++ n.literals)

def listLiterals : List Expr → List Value
  | [] => []
  | e :: rest => e.literals ++ listLiterals rest

def keywordLiterals : List (String × Expr) → List Value
  | [] => []
  | (_, e) :: rest => e.literals ++ keywordLiterals rest

end

end Expr

def Instruction.literals (i : Instruction) : List Value := Expr.listLiterals i.expressions

def Program.literals (p : Program) : List Value :=
  p.instructions.toList.flatMap Instruction.literals

lemma Program.mem_literals {p : Program} {id : String} {i : Instruction}
    (hi : p.instructions.get? id = some i) {v : Value} (hv : v ∈ i.literals) : v ∈ p.literals :=
  List.mem_flatMap.2 ⟨i, (Roster.mem_values_iff _ _).2 ⟨id, hi⟩, hv⟩

def Tables.keywords? (t : Tables) (keywords : Option ℕ) : Option (List String) :=
  keywords.elim (some []) fun i => t.keywordSets[i]?

/-- The operations compute the values of the expressions, the first one first. All literals are
among the given ones, also the one in the table as which a literal reads. -/
inductive ExprCode (literals : List Value) (g : Scope) : List Expr → List Op → Prop where
  | nil : ExprCode literals g [] []
  | literal {i : ℕ} {v : Value} {rest : List Expr} {k : List Op}
      (hi : g.literals[i]? = some (g.read v)) (hv : v ∈ literals) (hread : g.read v ∈ literals)
      (hrest : ExprCode literals g rest k) :
      ExprCode literals g (.literal v :: rest) (.literal i :: k)
  | var {x : String} {slot : Lowering.Slot} {rest : List Expr} {k : List Op}
      (hslot : g.slot? x = some slot) (hrest : ExprCode literals g rest k) :
      ExprCode literals g (.var x :: rest) (slot.load :: k)
  | unary {op : UnaryOp} {x : Expr} {code : List Op} {rest : List Expr} {k : List Op}
      (hx : ExprCode literals g [x] code) (hrest : ExprCode literals g rest k) :
      ExprCode literals g (.unary op x :: rest) (code ++ .unary op :: k)
  | binary {op : BinaryOp} {l r : Expr} {code : List Op} {rest : List Expr} {k : List Op}
      (hlr : ExprCode literals g [l, r] code) (hrest : ExprCode literals g rest k) :
      ExprCode literals g (.binary op l r :: rest) (code ++ .binary op :: k)
  | call {f : String} {args : List Expr} {keywords : List (String × Expr)} {i : ℕ}
      {names : Option ℕ} {code : List Op} {rest : List Expr} {k : List Op}
      (hargs : ExprCode literals g (args ++ keywords.map Prod.snd) code)
      (hf : g.functions.slot? f = some i)
      (hnames : g.keywords? names = some (keywords.map Prod.fst))
      (hrest : ExprCode literals g rest k) :
      ExprCode literals g (.call f args keywords :: rest) (code ++ .call i args.length names :: k)
  | cond {c y n : Expr} {code yes no : List Op} {rest : List Expr} {k : List Op}
      (hc : ExprCode literals g [c] code) (hy : ExprCode literals g [y] yes)
      (hn : ExprCode literals g [n] no) (hrest : ExprCode literals g rest k) :
      ExprCode literals g (.cond c y n :: rest)
        (code ++ .jumpIfFalse (yes.length + 1) :: (yes ++ .jump no.length :: (no ++ k)))

/-- The operations carry out an action that is not a branch. -/
inductive ActionCode (p : Program) (g : Scope) : Action → List Op → Prop where
  | assign {x : String} {e : Expr} {slot : Lowering.Slot} {code : List Op}
      (he : ExprCode p.literals g [e] code) (hslot : g.slot? x = some slot) :
      ActionCode p g (.assign x e) (code ++ [slot.store])
  | emit {time e : Expr} {timeId component : String} {i j : ℕ} {code : List Op}
      (he : ExprCode p.literals g [time, e] code) (hi : g.labels.slot? component = some i)
      (hj : g.labels.slot? timeId = some j) :
      ActionCode p g (.emit time timeId e component) (code ++ [.emit i j])
  | abort : ActionCode p g .abort [.abort]
  | raise {kind message : String} {i : ℕ} (hi : g.raises[i]? = some (kind, message)) :
      ActionCode p g (.raise kind message) [.raise i]
  | transition {next : String} {i : ℕ} (hi : p.states.place? next = some i) :
      ActionCode p g (.transition next) [.transition i]

inductive StepCode (p : Program) (g : Scope) : List Step → List Op → Prop where
  | nil : StepCode p g [] []
  | run {id : String} {i : Instruction} {code : List Op} {rest : List Step} {k : List Op}
      (hi : p.instructions.get? id = some i) (hcode : ActionCode p g i.action code)
      (hrest : StepCode p g rest k) : StepCode p g (.run id :: rest) (code ++ k)
  | ifOnly {id : String} {i : Instruction} {c : Expr} {y n : NameSet} {steps rest : List Step}
      {code yes k : List Op} (hi : p.instructions.get? id = some i)
      (haction : i.action = .branch c y n) (hc : ExprCode p.literals g [c] code)
      (hyes : StepCode p g steps yes) (hrest : StepCode p g rest k) :
      StepCode p g (.branch id steps [] :: rest) (code ++ .jumpIfFalse yes.length :: (yes ++ k))
  | ifElse {id : String} {i : Instruction} {c : Expr} {y n : NameSet}
      {steps steps' rest : List Step} {code yes no k : List Op}
      (hi : p.instructions.get? id = some i) (haction : i.action = .branch c y n)
      (hc : ExprCode p.literals g [c] code) (hyes : StepCode p g steps yes)
      (hno : StepCode p g steps' no) (hrest : StepCode p g rest k) :
      StepCode p g (.branch id steps steps' :: rest)
        (code ++ .jumpIfFalse (yes.length + 1) :: (yes ++ .jump no.length :: (no ++ k)))

def Op.computes : Op → Bool
  | literal _ | loadPersistent _ | loadLocal _ | unary _ | binary _ | call _ _ _ | jumpIfFalse _
  | jump _ => true
  | _ => false

lemma ExprCode.computes {literals : List Value} {g : Scope} {es : List Expr} {code : List Op}
    (h : ExprCode literals g es code) : ∀ op ∈ code, op.computes = true := by
  induction h with
  | nil => simp
  | literal _ _ _ _ ih => simpa [Op.computes] using ih
  | @var x slot _ _ _ _ ih =>
    have hload : slot.load.computes = true := by cases slot <;> rfl
    exact List.forall_mem_cons.2 ⟨hload, ih⟩
  | unary _ _ ihx ih => exact List.forall_mem_append.2 ⟨ihx, List.forall_mem_cons.2 ⟨rfl, ih⟩⟩
  | binary _ _ ihlr ih => exact List.forall_mem_append.2 ⟨ihlr, List.forall_mem_cons.2 ⟨rfl, ih⟩⟩
  | call _ _ _ _ ihargs ih =>
    exact List.forall_mem_append.2 ⟨ihargs, List.forall_mem_cons.2 ⟨rfl, ih⟩⟩
  | cond _ _ _ _ ihc ihy ihn ih =>
    simp only [List.forall_mem_append, List.forall_mem_cons]
    exact ⟨ihc, rfl, ihy, rfl, ihn, ih⟩

lemma drop_then {yes no rest : List Op} {offset : ℕ} :
    (yes ++ Op.jump offset :: (no ++ rest)).drop (yes.length + 1) = no ++ rest := by
  simp [List.drop_append]

namespace Lowering

/-! ### Expressions -/

section

variable {literals : List Value} {reserved : Std.TreeSet String} {instruction : String}

mutual

lemma ensures_expr (e : Expr) (h : ∀ v ∈ e.literals, v ∈ literals) :
    Ensures literals (expr reserved instruction e) fun g code => ∀ rest k,
      ExprCode literals g rest k → ExprCode literals g (e :: rest) (code.toList ++ k) := by
  cases e with
  | literal v =>
    rw [expr]
    refine (ensures_addLiteral (h v (by simp [Expr.literals]))).bind fun i => .pure ?_
    rintro g ⟨hi, hread⟩ rest k hrest
    exact .literal hi (h v (by simp [Expr.literals])) hread hrest
  | var x =>
    rw [expr]
    exact (ensures_variableSlot instruction x).bind fun slot => .pure fun g hslot rest k hrest =>
      .var hslot hrest
  | unary op x =>
    rw [expr]
    refine (ensures_expr x h).bind fun code => .pure fun g hx rest k hrest => ?_
    have hx : ExprCode literals g [x] code.toList := by simpa using hx [] [] .nil
    have hrow : ExprCode literals g (.unary op x :: rest) _ := .unary hx hrest
    simpa using hrow
  | binary op l r =>
    rw [expr]
    simp only [Expr.literals, List.forall_mem_append] at h
    refine (ensures_expr l h.1).bind fun lcode => (ensures_expr r h.2).bind fun rcode =>
      .pure fun g hr hl rest k hrest => ?_
    have hlr : ExprCode literals g [l, r] (lcode.toList ++ rcode.toList) := by
      simpa using hl [r] _ (hr [] [] .nil)
    have hrow : ExprCode literals g (.binary op l r :: rest) _ := .binary hlr hrest
    simpa using hrow
  | call f args keywords =>
    rw [expr]
    simp only [Expr.literals, List.forall_mem_append] at h
    refine (ensures_exprs args h.1).bind fun acode =>
      (ensures_keywordExprs keywords h.2).bind fun kcode => ?_
    dsimp only
    split
    · exact .throw_bind
    · -- the keyword operand refers to the names either way
      refine Ensures.ite_bind (P := fun g names => g.keywords? names = some (keywords.map Prod.fst))
        (fun hnone => .pure fun g => ?_) (fun _ => .map (ensures_addKeywordSet _)) fun names =>
          (ensures_intern .function f).bind fun i =>
            .pure fun g hf hnames hk ha rest k hrest => ?_
      · rw [List.isEmpty_iff.1 hnone]
        rfl
      · have hargs : ExprCode literals g (args ++ keywords.map Prod.snd)
            (acode.toList ++ kcode.toList) := by
          simpa using ha _ _ (hk [] [] .nil)
        have hrow : ExprCode literals g (.call f args keywords :: rest) _ :=
          .call hargs hf hnames hrest
        simpa using hrow
  | cond c y n =>
    rw [expr]
    simp only [Expr.literals, List.forall_mem_append] at h
    refine (ensures_expr c h.1).bind fun ccode => (ensures_expr y h.2.1).bind fun ycode =>
      (ensures_jumpOver _).bind fun toElse => (ensures_expr n h.2.2).bind fun ncode =>
      (ensures_jumpOver _).bind fun toEnd => .pure fun g hend hn helse hy hc rest k hrest => ?_
    subst hend helse
    have hc : ExprCode literals g [c] ccode.toList := by simpa using hc [] [] .nil
    have hy : ExprCode literals g [y] ycode.toList := by simpa using hy [] [] .nil
    have hn : ExprCode literals g [n] ncode.toList := by simpa using hn [] [] .nil
    have hrow : ExprCode literals g (.cond c y n :: rest) _ := .cond hc hy hn hrest
    simpa using hrow

lemma ensures_exprs (l : List Expr) (h : ∀ v ∈ Expr.listLiterals l, v ∈ literals) :
    Ensures literals (exprs reserved instruction l) fun g code => ∀ rest k,
      ExprCode literals g rest k → ExprCode literals g (l ++ rest) (code.toList ++ k) := by
  cases l with
  | nil =>
    rw [exprs]
    exact .pure fun g rest k hrest => hrest
  | cons e l =>
    rw [exprs]
    simp only [Expr.listLiterals, List.forall_mem_append] at h
    refine (ensures_expr e h.1).bind fun ecode => (ensures_exprs l h.2).bind fun lcode =>
      .pure fun g hl he rest k hrest => ?_
    simpa using he _ _ (hl rest k hrest)

lemma ensures_keywordExprs (l : List (String × Expr))
    (h : ∀ v ∈ Expr.keywordLiterals l, v ∈ literals) :
    Ensures literals (keywordExprs reserved instruction l) fun g code => ∀ rest k,
      ExprCode literals g rest k →
        ExprCode literals g (l.map Prod.snd ++ rest) (code.toList ++ k) := by
  cases l with
  | nil =>
    rw [keywordExprs]
    exact .pure fun g rest k hrest => hrest
  | cons e l =>
    rw [keywordExprs]
    simp only [Expr.keywordLiterals, List.forall_mem_append] at h
    refine (ensures_expr e.2 h.1).bind fun ecode => (ensures_keywordExprs l h.2).bind fun lcode =>
      .pure fun g hl he rest k hrest => ?_
    simpa using he _ _ (hl rest k hrest)

end

end

/-! ### Steps -/

section

variable {p : Program} {reserved : Std.TreeSet String}

lemma stateIndex_eq_ok {name : String} {i : ℕ} (h : stateIndex p name = .ok i) :
    p.states.place? name = some i := by
  unfold stateIndex at h
  split at h
  · obtain ⟨-, rfl⟩ := operand_eq_ok.1 h
    assumption
  · cases h

lemma ensures_instruction {i : Instruction} (hplain : i.arms? = none)
    (hl : ∀ v ∈ i.literals, v ∈ p.literals) :
    Ensures p.literals (instruction p reserved i) fun g code =>
      ActionCode p g i.action code.toList := by
  obtain ⟨id, dependsOn, action⟩ := i
  cases action with
  | assign x e =>
    simp only [Instruction.literals, Instruction.expressions, Expr.listLiterals,
      List.append_nil] at hl
    refine (ensures_expr e hl).bind fun code => (ensures_variableSlot id x).bind fun slot =>
      .pure fun g hslot he => ?_
    have he : ExprCode p.literals g [e] code.toList := by simpa using he [] [] .nil
    simpa using ActionCode.assign he hslot
  | branch c y n => cases hplain
  | emit time timeId e component =>
    simp only [Instruction.literals, Instruction.expressions, Expr.listLiterals,
      List.append_nil, List.forall_mem_append] at hl
    refine (ensures_expr time hl.1).bind fun tcode => (ensures_expr e hl.2).bind fun ecode =>
      (ensures_intern .label component).bind fun i => (ensures_intern .label timeId).bind fun j =>
      .pure fun g hj hi he ht => ?_
    have he : ExprCode p.literals g [time, e] (tcode.toList ++ ecode.toList) := by
      simpa using ht [e] _ (he [] [] .nil)
    simpa using ActionCode.emit he hi hj
  | abort => exact .pure fun _ => .abort
  | raise kind message =>
    exact (ensures_addRaise kind message).bind fun i => .pure fun g hi => .raise hi
  | transition next =>
    refine Ensures.bind (P := fun _ i => p.states.place? next = some i)
      (.lift fun i hi _ => stateIndex_eq_ok hi) fun i => .pure fun g hi => .transition hi

lemma scheduled_eq {state id : String} {i : Instruction} (hi : p.instructions.get? id = some i) :
    scheduled p state id = pure i := by
  simp [scheduled, hi]

lemma expressions_of_arms {i : Instruction} {arms : NameSet × NameSet} (h : i.arms? = some arms) :
    ∃ c y n, i.action = .branch c y n ∧ i.expressions = [c] := by
  unfold Instruction.arms? at h
  split at h
  · rename_i c y n haction
    exact ⟨c, y, n, haction, by rw [Instruction.expressions, haction]⟩
  · cases h

lemma ensures_steps {state : String} {l : List Step} (h : Schedule.Shaped p.instructions l) :
    Ensures p.literals (steps p reserved state l) fun g code => StepCode p g l code.toList := by
  induction h with
  | nil =>
    rw [steps]
    exact .pure fun _ => .nil
  | @run id i rest hi harms _ ih =>
    rw [steps, step, scheduled_eq hi, pure_bind]
    have hl : ∀ v ∈ i.literals, v ∈ p.literals := fun v hv => Program.mem_literals hi hv
    refine ((ensures_internNames i).bind fun _ =>
      (ensures_instruction harms hl).imp fun _ _ h _ => h).bind fun code =>
        ih.bind fun k => .pure fun g hrest hcode => ?_
    simpa using .run hi hcode hrest
  | @branch id i arms yes no rest hi harms _ _ _ ihyes ihno ihrest =>
    rw [steps, step, scheduled_eq hi, pure_bind]
    have hl : ∀ v ∈ i.literals, v ∈ p.literals := fun v hv => Program.mem_literals hi hv
    obtain ⟨c, y, n, haction, hc⟩ := expressions_of_arms harms
    refine Ensures.bind (P := fun g code => ∀ rest k, StepCode p g rest k →
      StepCode p g (.branch id yes no :: rest) (code.toList ++ k)) ?_ fun code =>
        ihrest.bind fun k => .pure fun g hrest hcode => ?_
    · refine (ensures_internNames i).bind fun _ => (ensures_exprs _ hl).bind fun ccode =>
        ihyes.bind fun ycode => ?_
      have hcondition : ∀ {g}, (∀ rest k, ExprCode p.literals g rest k →
          ExprCode p.literals g (i.expressions ++ rest) (ccode.toList ++ k)) →
          ExprCode p.literals g [c] ccode.toList := by
        intro g hcode
        simpa [hc] using hcode [] [] .nil
      split
      · rename_i hnone
        obtain rfl := List.isEmpty_iff.1 hnone
        refine (ensures_jumpOver _).bind fun toEnd => .pure fun g hend hy hcode _ rest k hrest => ?_
        subst hend
        have hrow := StepCode.ifOnly hi haction (hcondition hcode) hy hrest
        simpa using hrow
      · refine (ensures_jumpOver _).bind fun toElse => ihno.bind fun ncode =>
          (ensures_jumpOver _).bind fun toEnd =>
            .pure fun g hend hn helse hy hcode _ rest k hrest => ?_
        subst hend helse
        have hrow := StepCode.ifElse hi haction (hcondition hcode) hy hn hrest
        simpa using hrow
    · simpa using hcode rest k.toList hrest

end

end Lowering

/-! ### States and programs -/

def Tables.scope (t : Tables) (s : StateCode) : Scope := { t with locals := s.locals }

/-- The code of a state: that of its steps, and one `complete` at the end. -/
structure StateCode.Of (p : Program) (t : Tables) (st : State) (s : StateCode) : Prop where
  name_eq : s.name = st.name
  next : p.states.place? st.next = some s.next
  ops : ∃ steps body, Schedule.ofRoots p.instructions st.roots = .ok steps ∧
    StepCode p (t.scope s) steps body ∧ s.ops.toList = body ++ [.complete]

structure Code.Of (p : Program) (c : Code) : Prop where
  keys : c.states.keys = p.states.keys
  initial : p.states.place? p.initial = some c.initial
  state : ∀ (i : ℕ) st, p.states.values[i]? = some st →
    ∃ s, c.state? i = some s ∧ s.Of p c.toTables st

variable {p : Program}

lemma Lowering.exists_of_state_eq_ok {reserved : Std.TreeSet String} {st : State} {t t' : Tables}
    {s : StateCode} (h : Lowering.state p reserved st t = .ok (s, t')) : ∃ steps next code scope,
      Schedule.ofRoots p.instructions st.roots = .ok steps ∧
      Schedule.Shaped p.instructions steps ∧ stateIndex p st.next = .ok next ∧
      Lowering.steps p reserved st.name steps { t with } = .ok (code, scope) ∧
      s = ⟨st.name, next, (code ++ .ops [.complete]).toList.toArray, scope.locals⟩ ∧
      t' = scope.toTables := by
  unfold Lowering.state at h
  split at h
  case h_2 => cases h
  rename_i steps hroots
  obtain ⟨_, hpure, h⟩ := bind_eq_ok.1 h
  cases hpure
  obtain ⟨next, hnext, h⟩ := bind_eq_ok.1 h
  obtain ⟨⟨code, scope⟩, hcode, h⟩ := bind_eq_ok.1 h
  cases h
  obtain ⟨plan, hplan, hpure⟩ := bind_eq_ok.1 hroots
  cases hpure
  exact ⟨plan.steps, next, code, scope, hroots, Schedule.shaped_of_unit hplan, hnext, hcode, rfl,
    rfl⟩

lemma Lowering.state_eq_ok {reserved : Std.TreeSet String} {st : State} {t t' : Tables}
    {s : StateCode} (h : Lowering.state p reserved st t = .ok (s, t'))
    (hl : ∀ v ∈ t.literals, v ∈ p.literals) :
    t.Le t' ∧ (∀ v ∈ t'.literals, v ∈ p.literals) ∧ ∀ g, t'.Le g → s.Of p g st := by
  obtain ⟨steps, next, code, scope, hroots, hshaped, hnext, hcode, rfl, rfl⟩ :=
    exists_of_state_eq_ok h
  obtain ⟨hle, hl', hensures⟩ := ensures_steps hshaped _ _ _ hcode hl
  refine ⟨hle.toLe, hl', fun g hg => ⟨rfl, stateIndex_eq_ok hnext, steps, code.toList, hroots,
    hensures _ ⟨hg, .refl _⟩, ?_⟩⟩
  simp

/-- What the states that were lowered so far have given. -/
def Lowering.Done (p : Program) (done : List State) (b : Roster StateCode × Tables) : Prop :=
  (done.map State.name).Nodup → b.1.keys = done.map State.name ∧
    (∀ v ∈ b.2.literals, v ∈ p.literals) ∧ ∀ g, b.2.Le g → ∀ (i : ℕ) st, done[i]? = some st →
      ∃ s, b.1.values[i]? = some s ∧ s.Of p g st

lemma Lowering.Done.step {reserved : Std.TreeSet String} {done : List State} {st : State}
    {b : Roster StateCode × Tables} {s : StateCode} {t : Tables} (h : Done p done b)
    (hs : Lowering.state p reserved st b.2 = .ok (s, t)) :
    Done p (done ++ [st]) (b.1.insert st.name s, t) := by
  intro hnodup
  rw [List.map_append, List.map_singleton, List.nodup_append] at hnodup
  obtain ⟨hkeys, hl, hof⟩ := h hnodup.1
  obtain ⟨hle, hl', hs⟩ := Lowering.state_eq_ok hs hl
  have hnew : st.name ∉ b.1.keys := by
    rw [hkeys]
    exact fun hmem => hnodup.2.2 _ hmem _ (List.mem_singleton_self _) rfl
  have hlist := Roster.toList_insert_of_notMem hnew s
  have hvalues : (b.1.insert st.name s).values = b.1.values ++ [s] := by
    simp [Roster.values, hlist]
  have hlength : b.1.values.length = done.length := by
    simpa [Roster.keys, Roster.values] using congrArg List.length hkeys
  refine ⟨?_, hl', fun g hg i st' hi => ?_⟩
  · simpa [Roster.keys, hlist] using hkeys
  · rw [hvalues]
    rw [List.getElem?_append] at hi ⊢
    rw [hlength]
    split at hi
    · rw [if_pos ‹_›]
      exact hof g (hle.trans hg) i st' hi
    · rw [if_neg ‹_›]
      obtain ⟨hlt, heq⟩ := List.getElem?_eq_some_iff.1 hi
      have hzero : i - done.length = 0 := by simpa using hlt
      obtain rfl : st = st' := by simpa using heq
      exact ⟨s, by rw [hzero]; rfl, hs g hg⟩

/-- **What code generation makes of a program** whose states are found under their names. -/
theorem Code.of_ofProgram {reserved : List String} {c : Code}
    (hnames : ∀ {name st}, p.state? name = some st → st.name = name)
    (h : Code.ofProgram reserved p = .ok c) : c.Of p := by
  obtain ⟨words, -, h⟩ := bind_eq_ok.1 h
  obtain ⟨⟨_, t₁⟩, -, h⟩ := bind_eq_ok.1 h
  obtain ⟨⟨_, t₂⟩, -, h⟩ := bind_eq_ok.1 h
  obtain ⟨⟨states, tables⟩, hfold, h⟩ := bind_eq_ok.1 h
  obtain ⟨initial, hinitial, h⟩ := bind_eq_ok.1 h
  cases h
  have hkeys : p.states.values.map State.name = p.states.keys := by
    rw [Roster.values, Roster.keys, List.map_map]
    exact List.map_congr_left fun e he => hnames ((Roster.get?_eq_some_iff _ _ _).2 he)
  have hdone : Lowering.Done p p.states.values (states, tables) := by
    refine foldlM_induction (P := Lowering.Done p) ?_ ?_ hfold
    · intro done b st b' hdone hb
      obtain ⟨⟨s, t⟩, hs, hpure⟩ := bind_eq_ok.1 hb
      cases hpure
      exact hdone.step hs
    · exact fun _ => ⟨rfl, by simp, by simp⟩
  obtain ⟨hkeys', -, hof⟩ := hdone (hkeys ▸ Roster.nodup_keys _)
  refine ⟨hkeys'.trans hkeys, Lowering.stateIndex_eq_ok hinitial, fun i st hi => ?_⟩
  obtain ⟨s, hs, hsof⟩ := hof tables (.refl _) i st hi
  refine ⟨s, ?_, hsof⟩
  simpa [Code.state?, Roster.values, Roster.toList] using hs

lemma Code.Of.exists_state {c : Code} (h : c.Of p) {i : ℕ} {s : StateCode}
    (hs : c.state? i = some s) : ∃ st, p.states.values[i]? = some st ∧ s.Of p c.toTables st := by
  have hlt : i < p.states.values.length := by
    obtain ⟨e, he, -⟩ := Option.map_eq_some_iff.1 hs
    have hlength := congrArg List.length h.keys
    have hi := (Array.getElem?_eq_some_iff.1 he).1
    simp only [Roster.keys, Roster.values, Roster.toList, List.length_map,
      Array.length_toList] at hlength ⊢
    omega
  obtain ⟨s', hs', hof⟩ := h.state i _ (List.getElem?_eq_getElem hlt)
  obtain rfl := Option.some.inj (hs.symm.trans hs')
  exact ⟨_, List.getElem?_eq_getElem hlt, hof⟩

lemma Code.Of.exists_code {c : Code} (h : c.Of p) {name : String} {st : State}
    (hst : p.state? name = some st) :
    ∃ i s, c.stateIndex? name = some i ∧ c.state? i = some s ∧ s.Of p c.toTables st := by
  obtain ⟨i, hi, hvalue⟩ := (Roster.get?_eq_some_iff_place? _ _ _).1 hst
  obtain ⟨s, hs, hof⟩ := h.state i st hvalue
  exact ⟨i, s, (Roster.place?_congr h.keys name).trans hi, hs, hof⟩

lemma Code.Of.getElem?_keys {c : Code} (h : c.Of p) (hp : p.Accepted) {i : ℕ} {s : StateCode}
    (hs : c.state? i = some s) : c.states.keys[i]? = some s.name := by
  obtain ⟨st, hst, hof⟩ := h.exists_state hs
  obtain ⟨⟨k, st'⟩, he, rfl⟩ : ∃ e, p.states.toList[i]? = some e ∧ e.2 = st := by
    rwa [Roster.values, List.getElem?_map, Option.map_eq_some_iff] at hst
  have hname : st'.name = k := hp.name_eq
    ((Roster.get?_eq_some_iff _ _ _).2 (List.mem_iff_getElem?.2 ⟨i, he⟩))
  rw [h.keys, Roster.keys, List.getElem?_map, he, Option.map_some, hof.name_eq, hname]

end TimeMarch
