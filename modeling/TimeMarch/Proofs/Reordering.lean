import TimeMarch.Proofs.Completion
import TimeMarch.Proofs.Readiness
import TimeMarch.Proofs.Refusals

/-!
# The Order of Registration

Instructions that do not depend on each other are scheduled in the order of their registration. If a
state only assigns variables, and of two assignments that do not depend on each other neither
touches what the other reads or writes, this order cannot be told from the outcome: any schedule can
be turned into any other by exchanging neighbours that commute.
-/

namespace TimeMarch

open Relation

/-! ### Lists that respect a relation -/

section Exchange

variable {α β : Type} {f : β → α → Option β} {R : α → α → Prop}

lemma foldlM_move_front {a : α} {pre post : List α}
    (hcomm : ∀ b ∈ pre, ∀ s, (f s b).bind (f · a) = (f s a).bind (f · b)) (s : β) :
    (pre ++ a :: post).foldlM f s = (a :: (pre ++ post)).foldlM f s := by
  induction pre generalizing s with
  | nil => rfl
  | cons b pre ih =>
    rw [List.forall_mem_cons] at hcomm
    calc (b :: pre ++ a :: post).foldlM f s
        = (f s b).bind fun s => (pre ++ a :: post).foldlM f s := rfl
      _ = (f s b).bind fun s => (a :: (pre ++ post)).foldlM f s := by
          simp only [ih hcomm.2]
      _ = ((f s b).bind (f · a)).bind fun s => (pre ++ post).foldlM f s := by
          rw [Option.bind_assoc]
          rfl
      _ = ((f s a).bind (f · b)).bind fun s => (pre ++ post).foldlM f s := by
          rw [hcomm.1 s]
      _ = (a :: (b :: pre ++ post)).foldlM f s := by
          rw [Option.bind_assoc]
          rfl

/-- **Two lists of the same elements**, in which no element has to come behind a later one, give the
same result if elements that may come in either order commute. -/
theorem foldlM_eq_of_perm {l l' : List α} (hperm : l.Perm l') (hnodup : l.Nodup)
    (hl : l.Pairwise fun a b => ¬R a b) (hl' : l'.Pairwise fun a b => ¬R a b)
    (hcomm : ∀ a ∈ l, ∀ b ∈ l, a ≠ b → ¬R a b → ¬R b a →
      ∀ s, (f s a).bind (f · b) = (f s b).bind (f · a)) (s : β) :
    l.foldlM f s = l'.foldlM f s := by
  induction l generalizing l' s with
  | nil => rw [List.nil_perm.1 hperm]
  | cons a l ih =>
    obtain ⟨pre, post, rfl⟩ := List.append_of_mem (hperm.mem_iff.1 List.mem_cons_self)
    have hrest : l.Perm (pre ++ post) := (hperm.trans List.perm_middle).cons_inv
    rw [List.nodup_cons] at hnodup
    rw [List.pairwise_cons] at hl
    rw [List.pairwise_append, List.pairwise_cons] at hl'
    have hpre : ∀ b ∈ pre, ∀ s, (f s b).bind (f · a) = (f s a).bind (f · b) := by
      intro b hb
      have hbl : b ∈ l := hrest.mem_iff.2 (List.mem_append_left _ hb)
      have hne : b ≠ a := by
        rintro rfl
        exact hnodup.1 hbl
      exact hcomm b (List.mem_cons_of_mem _ hbl) a List.mem_cons_self hne
        (hl'.2.2 b hb a List.mem_cons_self) (hl.1 b hbl)
    have hpost : (pre ++ post).Pairwise fun a b => ¬R a b :=
      List.pairwise_append.2 ⟨hl'.1, hl'.2.1.2, fun x hx y hy =>
        hl'.2.2 x hx y (List.mem_cons_of_mem _ hy)⟩
    have htail : ∀ s, l.foldlM f s = (pre ++ post).foldlM f s :=
      ih hrest hnodup.2 hl.2 hpost fun x hx y hy =>
        hcomm x (List.mem_cons_of_mem _ hx) y (List.mem_cons_of_mem _ hy)
    rw [foldlM_move_front hpre, List.foldlM_cons, List.foldlM_cons]
    simp only [htail]

end Exchange

/-! ### Assignments that commute -/

namespace Memory

variable (m : Memory) {x y : String}

lemma get?_set (v : Value) : (m.set x v).get? y = if x = y then some v else m.get? y := by
  unfold get? set
  by_cases hxy : x = y
  · subst hxy
    split <;> simp
  · split <;> split <;> simp [hxy]

lemma set_comm (hxy : x ≠ y) (v w : Value) : (m.set x v).set y w = (m.set y w).set x v := by
  unfold set
  split <;> split <;> simp only [Memory.mk.injEq, and_true, true_and]
  · funext z
    by_cases hz : x = z
    · subst hz
      simp [Ne.symm hxy]
    · simp [hz]
  · funext z
    by_cases hz : x = z
    · subst hz
      simp [Ne.symm hxy]
    · simp [hz]

end Memory

namespace Expr

variable {g : Setting} {m m' : Memory}

mutual

theorem evalIn_congr (e : Expr) (h : ∀ x, .read x ∈ e.mentions → m.get? x = m'.get? x)
    (depth : ℕ) : e.evalIn g m depth = e.evalIn g m' depth := by
  cases e with
  | literal v => rw [evalIn, evalIn]
  | var x =>
    rw [evalIn, evalIn, h x (by simp [mentions, mentionsOnto])]
  | unary op x =>
    rw [evalIn, evalIn, evalIn_congr x h]
  | binary op l r =>
    simp only [mentions_binary, List.mem_append] at h
    simp only [evalIn, evalIn_congr l fun x hx => h x (.inl hx),
      evalIn_congr r fun x hx => h x (.inr hx)]
  | call f args keywords =>
    simp only [mentions_call, List.mem_cons, reduceCtorEq, false_or, List.mem_append] at h
    simp only [evalIn, evalAllIn_congr args fun x hx => h x (.inl hx),
      evalKeywordsIn_congr keywords fun x hx => h x (.inr hx)]
  | cond c y n =>
    simp only [mentions_cond, List.mem_append] at h
    simp only [evalIn, evalIn_congr c fun x hx => h x (.inl hx),
      evalIn_congr y fun x hx => h x (.inr (.inl hx)),
      evalIn_congr n fun x hx => h x (.inr (.inr hx))]

theorem evalAllIn_congr (l : List Expr)
    (h : ∀ x, .read x ∈ listMentionsOnto l [] → m.get? x = m'.get? x) (depth : ℕ) :
    evalAllIn g m l depth = evalAllIn g m' l depth := by
  cases l with
  | nil => rfl
  | cons e l =>
    simp only [listMentionsOnto_cons, List.mem_append] at h
    simp only [evalAllIn, evalIn_congr e fun x hx => h x (.inl hx),
      evalAllIn_congr l fun x hx => h x (.inr hx)]

theorem evalKeywordsIn_congr (l : List (String × Expr))
    (h : ∀ x, .read x ∈ keywordMentionsOnto l [] → m.get? x = m'.get? x) (depth : ℕ) :
    evalKeywordsIn g m l depth = evalKeywordsIn g m' l depth := by
  cases l with
  | nil => rfl
  | cons entry l =>
    obtain ⟨name, e⟩ := entry
    simp only [keywordMentionsOnto_cons, List.mem_append] at h
    simp only [evalKeywordsIn, evalIn_congr e fun x hx => h x (.inl hx),
      evalKeywordsIn_congr l fun x hx => h x (.inr hx)]

end

end Expr

/-- The assignments touch neither what the other one assigns nor what it reads. -/
def Instruction.Independent (i j : Instruction) : Prop :=
  ∀ x ∈ i.assignee?, ∀ y ∈ j.assignee?, x ≠ y ∧ x ∉ j.reads ∧ y ∉ i.reads

instance (i j : Instruction) : Decidable (i.Independent j) :=
  inferInstanceAs (Decidable (∀ x ∈ i.assignee?, ∀ y ∈ j.assignee?, _))

section Commuting

variable {g : Setting}

lemma Action.goal?_assign (m : Memory) (x : String) (e : Expr) :
    ((Action.assign x e).walkIn g m).goal? = (e.evalIn g m 0).toOption.map (m.set x) := by
  rw [walkIn]
  cases e.evalIn g m 0 <;> rfl

lemma Instruction.evalIn_set {i : Instruction} {x y : String} {e : Expr}
    (hi : i.action = .assign x e) (hy : y ∉ i.reads) (m : Memory) (v : Value) :
    e.evalIn g (m.set y v) 0 = e.evalIn g m 0 := by
  refine e.evalIn_congr (fun z hz => ?_) 0
  have hread : z ∈ i.reads := by
    rw [Lowering.mem_reads, Instruction.expressions, hi, Expr.listMentionsOnto_cons]
    exact List.mem_append_left _ hz
  rw [Memory.get?_set, if_neg]
  rintro rfl
  exact hy hread

/-- **Independent assignments commute**, also in whether they succeed. -/
lemma Instruction.Independent.commute {i j : Instruction} (h : i.Independent j) {x y : String}
    {e e' : Expr} (hi : i.action = .assign x e) (hj : j.action = .assign y e') (m : Memory) :
    (i.action.walkIn g m).goal?.bind (fun m => (j.action.walkIn g m).goal?) =
      (j.action.walkIn g m).goal?.bind fun m => (i.action.walkIn g m).goal? := by
  obtain ⟨hxy, hx, hy⟩ := h x (by simp [assignee?, hi]) y (by simp [assignee?, hj])
  rw [hi, hj]
  simp only [Action.goal?_assign]
  cases he : e.evalIn g m 0 with
  | error =>
    cases he' : e'.evalIn g m 0 with
    | error => rfl
    | ok w => simp [Except.toOption, evalIn_set hi hy, he]
  | ok v =>
    cases he' : e'.evalIn g m 0 with
    | error => simp [Except.toOption, evalIn_set hj hx, he']
    | ok w => simp [Except.toOption, evalIn_set hi hy, evalIn_set hj hx, he, he', m.set_comm hxy]

end Commuting

/-! ### Schedules without branches -/

namespace Schedule

open TimeMarch.Graph

variable {s : InstructionSet} {roots : List String}

lemma Ready.pairwise {done : Set String} {order : List String}
    (h : Ready s done (order.map .run)) (hsettled : s.Settled done) (hnodup : order.Nodup)
    (hnew : ∀ id ∈ order, id ∉ done) :
    order.Pairwise fun a b => ¬TransGen s.DependsOn a b := by
  induction order generalizing done with
  | nil => exact .nil
  | cons id order ih =>
    rw [List.nodup_cons] at hnodup
    rw [List.forall_mem_cons] at hnew
    cases h with
    | run hdeps hrest =>
      refine .cons (fun b hb hpath => hnew.2 b hb (hsettled.mem_of_transGen hdeps hpath)) ?_
      refine ih hrest (hsettled.insert hdeps) hnodup.2 fun b hb => ?_
      rintro (rfl | hdone)
      · exact hnodup.1 hb
      · exact hnew.2 b hb hdone

/-- **Without branches a schedule is a row** of all that is reachable. -/
theorem exists_row (hreg : ∀ {id d}, s.DependsOn id d → ∃ j, s.get? d = some j)
    (hplain : ∀ id, Reachable s roots id → armsOf s id = none) {steps : List Step}
    (h : ofRoots s roots = .ok steps) :
    ∃ order : List String, steps = order.map .run ∧ order.Nodup ∧
      (∀ id, id ∈ order ↔ Reachable s roots id) ∧
      order.Pairwise fun a b => ¬TransGen s.DependsOn a b := by
  have hready := (ready_of_ofRoots hreg h).1
  obtain ⟨plan, hplan, hsteps⟩ := bind_eq_ok.1 h
  obtain rfl : plan.steps = steps := Except.ok.inj hsteps
  obtain ⟨arms, order, ha⟩ := assembled_of_unit hplan
  have hrow : plan.steps = order.map .run := by
    rw [ha.steps]
    refine List.map_congr_left fun id hid => ?_
    have hmember := ha.isOrder.perm.mem_iff.1 hid
    have hnone : arms.get? id = none := by
      cases hget : arms.get? id with
      | none => rfl
      | some a =>
        obtain ⟨-, yes, no, harm, -⟩ := (ha.arms_iff id a.1 a.2).1 hget
        rw [hplain id (reachable_of_mem_members hmember)] at harm
        cases harm
    rw [stepOf, hnone]
  have hnodup : order.Nodup := ha.isOrder.perm.nodup_iff.2 (members s ∅ roots).nodup_keys
  refine ⟨order, hrow, hnodup, fun id => ?_, ?_⟩
  · rw [ha.isOrder.perm.mem_iff]
    refine ⟨reachable_of_mem_members, fun hid => ?_⟩
    rw [mem_members_iff]
    induction hid with
    | root hid _ hi => exact .root hid (by simp) hi
    | step hid hi hr _ hi' ih =>
      refine .step ih hi ?_ (by simp) hi'
      have harms := hplain _ hid
      rw [armsOf, hi, Option.bind_some] at harms
      rwa [Instruction.references, harms] at hr
  · exact (hrow ▸ hready).pairwise .empty hnodup (by simp)

end Schedule

/-! ### Two orders of registration -/

/-- Of the given ids, all assign, and those that do not depend on each other are independent. -/
structure InstructionSet.RaceFree (s : InstructionSet) (ids : List String) : Prop where
  assigns : ∀ id ∈ ids, ∀ i, s.get? id = some i → ∃ x e, i.action = .assign x e
  independent : ∀ a ∈ ids, ∀ b ∈ ids, a ≠ b →
    ¬TransGen s.DependsOn a b → ¬TransGen s.DependsOn b a →
    ∀ i j, s.get? a = some i → s.get? b = some j → i.Independent j

lemma InstructionSet.get?_eq_of_perm {s s' : InstructionSet} (h : s'.toList.Perm s.toList)
    (id : String) : s'.get? id = s.get? id := by
  ext i
  constructor
  · intro hi
    obtain ⟨hmem, rfl⟩ := Graph.mem_toList_of_get? hi
    exact get?_of_mem_toList (h.mem_iff.1 hmem)
  · intro hi
    obtain ⟨hmem, rfl⟩ := Graph.mem_toList_of_get? hi
    exact get?_of_mem_toList (h.mem_iff.2 hmem)

section TwoOrders

open TimeMarch.Graph Schedule

variable {s s' : InstructionSet} {roots : List String} {g : Setting}

lemma Graph.Reaches.congr (hsame : ∀ id, s'.get? id = s.get? id)
    {follow : Instruction → List String} {outer : String → Bool} {id : String}
    (hid : Reaches s follow outer roots id) : Reaches s' follow outer roots id := by
  induction hid with
  | root hid hout hi => exact .root hid hout ((hsame _).trans hi)
  | step _ hi href hout hi' ih =>
    exact .step ih ((hsame _).trans hi) href hout ((hsame _).trans hi')

namespace InstructionSet.RaceFree

lemma armsOf_eq_none (h : s.RaceFree (reachable s roots).keys) {id : String}
    (hid : Reachable s roots id) : armsOf s id = none := by
  obtain ⟨i, hi⟩ := hid.exists_get?
  obtain ⟨x, e, haction⟩ := h.assigns id ((mem_reachable_iff _ _ _).2 hid) i hi
  rw [armsOf, hi, Option.bind_some, Instruction.arms?, haction]

lemma commute (h : s.RaceFree (reachable s roots).keys) {a b : String}
    (ha : Reachable s roots a) (hb : Reachable s roots b) (hne : a ≠ b)
    (hab : ¬TransGen s.DependsOn a b) (hba : ¬TransGen s.DependsOn b a) (m : Memory) :
    ((Step.run a).walkIn g s m).goal?.bind (fun m => ((Step.run b).walkIn g s m).goal?) =
      ((Step.run b).walkIn g s m).goal?.bind fun m => ((Step.run a).walkIn g s m).goal? := by
  obtain ⟨i, hi⟩ := ha.exists_get?
  obtain ⟨j, hj⟩ := hb.exists_get?
  rw [← mem_reachable_iff] at ha hb
  obtain ⟨x, e, haction⟩ := h.assigns a ha i hi
  obtain ⟨y, e', haction'⟩ := h.assigns b hb j hj
  simp only [Step.walkIn, hi, hj]
  exact (h.independent a ha b hb hne hab hba i j hi hj).commute haction haction' m

end InstructionSet.RaceFree

variable (g s) in
lemma Step.goal?_walkAllIn_run (order : List String) (m : Memory) :
    (Step.walkAllIn g s (order.map .run) m).goal? =
      order.foldlM (fun m id => ((Step.run id).walkIn g s m).goal?) m := by
  induction order generalizing m with
  | nil => rfl
  | cons id order ih =>
    rw [List.map_cons, Step.walkAllIn, Walk.goal?_andThen, List.foldlM_cons]
    simp only [ih]
    rfl

/-- **The order of registration does not matter** to a walk over instructions without races. -/
theorem goal?_walkAllIn_of_raceFree (hsame : ∀ id, s'.get? id = s.get? id)
    (hreg : ∀ {id d}, s.DependsOn id d → ∃ j, s.get? d = some j)
    (hfree : s.RaceFree (reachable s roots).keys) {steps steps' : List Step}
    (h : ofRoots s roots = .ok steps) (h' : ofRoots s' roots = .ok steps') (m : Memory) :
    (Step.walkAllIn g s' steps' m).goal? = (Step.walkAllIn g s steps m).goal? := by
  have hdepends : s'.DependsOn = s.DependsOn := by
    funext id d
    simp only [InstructionSet.DependsOn, hsame]
  have hreachable : ∀ id, Reachable s' roots id ↔ Reachable s roots id := fun id =>
    ⟨Reaches.congr fun id => (hsame id).symm, Reaches.congr hsame⟩
  have hreg' : ∀ {id d}, s'.DependsOn id d → ∃ j, s'.get? d = some j := by
    intro id d hd
    rw [hsame]
    exact hreg (hdepends ▸ hd)
  have hplain' : ∀ id, Reachable s' roots id → armsOf s' id = none := by
    intro id hid
    rw [armsOf, hsame]
    exact hfree.armsOf_eq_none ((hreachable id).1 hid)
  have hrun : ∀ (id : String) (m : Memory),
      (Step.run id).walkIn g s' m = (Step.run id).walkIn g s m := by
    intro id m
    rw [Step.walkIn, Step.walkIn, hsame]
  obtain ⟨order, rfl, hnodup, hmem, hpairwise⟩ := exists_row hreg
    (fun _ => hfree.armsOf_eq_none) h
  obtain ⟨order', rfl, hnodup', hmem', hpairwise'⟩ := exists_row hreg' hplain' h'
  have hperm : order.Perm order' := (List.perm_ext_iff_of_nodup hnodup hnodup').2 fun id =>
    (hmem id).trans ((hmem' id).trans (hreachable id)).symm
  rw [hdepends] at hpairwise'
  simp only [Step.goal?_walkAllIn_run, hrun]
  refine (foldlM_eq_of_perm hperm hnodup hpairwise hpairwise' ?_ m).symm
  intro a ha b hb hne hab hba
  exact hfree.commute ((hmem a).1 ha) ((hmem b).1 hb) hne hab hba

end TwoOrders

lemma Program.mem_literals_of_perm {p p' : Program}
    (h : p'.instructions.toList.Perm p.instructions.toList) {v : Value} :
    v ∈ p'.literals ↔ v ∈ p.literals :=
  (h.flatMap_right _).mem_iff

/-- **The order of registration does not matter where there are no races.** Take two accepted
programs with the same states and the same instructions, registered in any order, whose literals
are identical where they are equal, and code for both. Let a state only assign variables, such that
of two instructions it reaches that do not depend on each other neither assigns what the other one
reads or assigns. If the steppers are in this state with the same persistent variables, one of them
completes it exactly if the other one does, and then the persistent variables are the same again. -/
theorem step_completes_iff_of_reordered {ins ins' : InstructionSet} {states states' : List State}
    {initial initial' : String} {p p' : Program}
    (hp : Program.create ins states initial = .ok p)
    (hp' : Program.create ins' states' initial' = .ok p')
    (hins : ins'.toList.Perm ins.toList) (hstates : states'.Perm states)
    {reserved reserved' : List String} {c c' : Code} (hc : Code.ofProgram reserved p = .ok c)
    (hc' : Code.ofProgram reserved' p' = .ok c')
    (hliterals : ∀ u ∈ p.literals, ∀ v ∈ p.literals, (u == v) = true → u = v)
    {name : String} {ids : Roll} (hids : p.reachable? name = some ids)
    (hfree : p.instructions.RaceFree ids.keys) {t : FunctionTable} {config : StepperConfig}
    {s s' : Stepper} (hs : Stepper.create c t config = .ok s)
    (hs' : Stepper.create c' t config = .ok s') {w w' : Storage}
    (hw : ∀ x, c'.contents w' x = c.contents w x) :
    let d := (s.enter name w).step.1.drain (s.enter name w).step.2
    let d' := (s'.enter name w').step.1.drain (s'.enter name w').step.2
    (.ok (.stateCompleted name) ∈ d'.1 ↔ .ok (.stateCompleted name) ∈ d.1) ∧
      (.ok (.stateCompleted name) ∈ d.1 →
        ∀ x, c'.contents d'.2.storage x = c.contents d.2.storage x) := by
  have hacc := Program.accepted_of_create hp
  have hacc' := Program.accepted_of_create hp'
  obtain ⟨st, hst, rfl⟩ := Option.map_eq_some_iff.1 hids
  obtain ⟨hmem, hname⟩ := (Program.state?_eq_some_iff hp).1 hst
  have hst' : p'.state? name = some st :=
    (Program.state?_eq_some_iff hp').2 ⟨hstates.mem_iff.2 hmem, hname⟩
  have hperm : p'.instructions.toList.Perm p.instructions.toList := by
    rwa [Program.instructions_of_create hp, Program.instructions_of_create hp']
  obtain ⟨steps, hsteps, -⟩ := hacc.exists_schedule hst
  obtain ⟨steps', hsteps', -⟩ := hacc'.exists_schedule hst'
  have hread : ∀ v ∈ p.literals, c.read v ∈ p.literals → c.read v = v := fun v hv =>
    Tables.read_eq_self hliterals hv
  have hread' : ∀ v ∈ p'.literals, c'.read v ∈ p'.literals → c'.read v = v := by
    simp only [Program.mem_literals_of_perm hperm]
    exact fun v hv => Tables.read_eq_self hliterals hv
  have hwalk := goal?_walkAllIn_of_raceFree (g := .plain t config.stackLimit)
    (InstructionSet.get?_eq_of_perm hperm) hacc.exists_of_dependsOn hfree hsteps hsteps'
    { persistent := c.contents w }
  obtain ⟨hiff, hcontents⟩ := Stepper.step_completes (Code.of_ofProgram hacc.name_eq hc) hst hname
    (g := .plain t config.stackLimit) hread rfl hs hsteps w
  obtain ⟨hiff', hcontents'⟩ := Stepper.step_completes (Code.of_ofProgram hacc'.name_eq hc') hst'
    hname (g := .plain t config.stackLimit) hread' rfl hs' hsteps' w'
  rw [funext hw, hwalk] at hiff' hcontents'
  intro d d'
  refine ⟨hiff'.trans hiff.symm, fun hcompleted x => ?_⟩
  obtain ⟨m, hm⟩ := Option.isSome_iff_exists.1 (hiff.1 hcompleted)
  rw [hcontents' m hm, hcontents m hm]

def twoGuesses : List Instruction := [
  ⟨"first", ∅, .assign "<p>k" (.var "<t>")⟩,
  ⟨"second", ∅, .assign "<p>l" (.binary .add (.var "<dt>") (.literal (.scalar 1)))⟩,
  ⟨"sum", .ofList ["first", "second"], .assign "y" (.binary .add (.var "<p>k") (.var "<p>l"))⟩]

def registered (l : List Instruction) : InstructionSet :=
  (InstructionSet.empty.addAll l).toOption.getD .empty

theorem step_completes_iff_of_reordered_twoGuesses : ∃ p p' c c' ids s s' w,
    Program.create (registered twoGuesses) [⟨"s", ["sum"], "s"⟩] "s" = .ok p ∧
    Program.create (registered twoGuesses.reverse) [⟨"s", ["sum"], "s"⟩] "s" = .ok p' ∧
    Code.ofProgram defaultReserved p = .ok c ∧ Code.ofProgram defaultReserved p' = .ok c' ∧
    c'.persistent.symbols.keys ≠ c.persistent.symbols.keys ∧
    (∀ u ∈ p.literals, ∀ v ∈ p.literals, (u == v) = true → u = v) ∧
    p.reachable? "s" = some ids ∧ p.instructions.RaceFree ids.keys ∧
    Stepper.create c .empty = .ok s ∧ Stepper.create c' .empty = .ok s' ∧
    (∀ x, c'.contents w x = c.contents w x) ∧
    let d := (s.enter "s" w).step.1.drain (s.enter "s" w).step.2
    let d' := (s'.enter "s" w).step.1.drain (s'.enter "s" w).step.2
    .ok (.stateCompleted "s") ∈ d.1 ∧ .ok (.stateCompleted "s") ∈ d'.1 ∧
      ∀ x, c'.contents d'.2.storage x = c.contents d.2.storage x := by
  obtain ⟨w, hw⟩ : ∃ w : Storage,
      w = ⟨#[some (.scalar 1), some (.scalar 2), none, none, none]⟩ := ⟨_, rfl⟩
  have hsome : ((Program.create (registered twoGuesses) [⟨"s", ["sum"], "s"⟩] "s").toOption.bind
      fun p => (Program.create (registered twoGuesses.reverse)
        [⟨"s", ["sum"], "s"⟩] "s").toOption.bind fun p' =>
      (Code.ofProgram defaultReserved p).toOption.bind fun c =>
      (Code.ofProgram defaultReserved p').toOption.bind fun c' =>
      (p.reachable? "s").bind fun ids => (Stepper.create c .empty).toOption.bind fun s =>
      (Stepper.create c' .empty).toOption.bind fun _ =>
        if c'.persistent.symbols.keys ≠ c.persistent.symbols.keys ∧
          (∀ u ∈ p.literals, ∀ v ∈ p.literals, (u == v) = true → u = v) ∧
          (∀ id ∈ ids.keys, ∀ i ∈ p.instructions.get? id, i.assignee?.isSome) ∧
          (∀ a ∈ ids.keys, ∀ b ∈ ids.keys, a ≠ b →
            ∀ i ∈ p.instructions.get? a, ∀ j ∈ p.instructions.get? b,
              b ∈ i.dependsOn ∨ a ∈ j.dependsOn ∨ i.Independent j) ∧
          (∀ x ∈ c.persistent.symbols.keys ++ c'.persistent.symbols.keys,
            c'.contents w x = c.contents w x) ∧
          .ok (.stateCompleted "s") ∈
            ((s.enter "s" w).step.1.drain (s.enter "s" w).step.2).1
        then some () else none) = some () := by
    subst hw
    decide +kernel
  obtain ⟨p, hp, hsome⟩ := Option.bind_eq_some_iff.1 hsome
  obtain ⟨p', hp', hsome⟩ := Option.bind_eq_some_iff.1 hsome
  obtain ⟨c, hc, hsome⟩ := Option.bind_eq_some_iff.1 hsome
  obtain ⟨c', hc', hsome⟩ := Option.bind_eq_some_iff.1 hsome
  obtain ⟨ids, hids, hsome⟩ := Option.bind_eq_some_iff.1 hsome
  obtain ⟨s, hs, hsome⟩ := Option.bind_eq_some_iff.1 hsome
  obtain ⟨s', hs', hsome⟩ := Option.bind_eq_some_iff.1 hsome
  rw [toOption_eq_some] at hp hp' hc hc' hs hs'
  obtain ⟨⟨hkeys, hliterals, hassigns, hdirect, hcontents, hcompleted⟩, -⟩ :=
    Option.ite_none_right_eq_some.1 hsome
  have hfree : p.instructions.RaceFree ids.keys := by
    refine ⟨fun id hid i hi => ?_, fun a ha b hb hne hab hba i j hi hj => ?_⟩
    · have hassignee := hassigns id hid i hi
      unfold Instruction.assignee? at hassignee
      split at hassignee
      · exact ⟨_, _, ‹_›⟩
      · cases hassignee
    · rcases hdirect a ha b hb hne i hi j hj with hd | hd | hindependent
      · exact absurd (.single ⟨i, hi, hd⟩) hab
      · exact absurd (.single ⟨j, hj, hd⟩) hba
      · exact hindependent
  have hsame : ∀ x, c'.contents w x = c.contents w x := by
    intro x
    by_cases hx : x ∈ c.persistent.symbols.keys ++ c'.persistent.symbols.keys
    · exact hcontents x hx
    · rw [List.mem_append, not_or] at hx
      simp [Code.contents, SymbolTable.slot?, (Roster.place?_eq_none_iff _ _).2 hx.1,
        (Roster.place?_eq_none_iff _ _).2 hx.2]
  obtain ⟨hiff, hvalues⟩ := step_completes_iff_of_reordered hp hp'
    (List.reverse_perm twoGuesses) (.refl _) hc hc' hliterals hids hfree hs hs' hsame
  exact ⟨p, p', c, c', ids, s, s', w, hp, hp', hc, hc', hkeys, hliterals, hids, hfree, hs, hs',
    hsame, hcompleted, hiff.2 hcompleted, hvalues hcompleted⟩

end TimeMarch
