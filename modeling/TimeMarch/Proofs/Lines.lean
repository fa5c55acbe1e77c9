import Mathlib.Logic.Relation
import TimeMarch.Proofs.Schedulability
import TimeMarch.Proofs.Sequences

/-!
# Lines Are Scheduled as They Are Laid

The unit of a line has the instructions of the line for members, since each depends on the one
before it and the first one on outer ids only. They have one order, that of the line. The arms of a
branch are lines that start from outer ids in turn, so what was laid is what is scheduled, at every
depth.
-/

namespace TimeMarch

namespace Sequence

open TimeMarch.Schedule TimeMarch.Graph

variable {s : InstructionSet}

lemma map_id_sublist_idsOf (steps : List Step) :
    (steps.map Step.id).Sublist (Step.idsOf steps) := by
  induction steps with
  | nil => exact .slnil
  | cons step steps ih =>
    have hstep : List.Sublist [step.id] step.ids := by
      cases step with
      | run id => exact .refl _
      | branch id yes no => exact List.sublist_append_right _ _
    rw [List.map_cons, Step.idsOf]
    exact hstep.append ih

lemma mem_idsOf_of_mem_map {steps : List Step} {x : String} (h : x ∈ steps.map Step.id) :
    x ∈ Step.idsOf steps :=
  (map_id_sublist_idsOf steps).mem h

section

variable {entry exit : List String} {steps : List Step}

lemma Laid.head {step : Step} (h : Laid s entry (step :: steps) exit) :
    (∀ d, d ∈ dependenciesOf s step.id ↔ d ∈ entry) ∧ (s.get? step.id).isSome ∧
      Laid s [step.id] steps exit := by
  have hdeps : ∀ {i : Instruction}, s.get? step.id = some i →
      i.dependsOn = NameSet.ofList entry → ∀ d, d ∈ dependenciesOf s step.id ↔ d ∈ entry := by
    intro i hi hi' d
    rw [dependenciesOf, hi, Option.map_some, Option.getD_some, hi']
    exact NameSet.mem_ofList
  cases h with
  | run hi hi' _ hrest => exact ⟨hdeps hi hi', by rw [Step.id, hi]; rfl, hrest⟩
  | branch hi hi' _ _ _ hrest => exact ⟨hdeps hi hi', by rw [Step.id, hi]; rfl, hrest⟩

lemma Laid.exit_eq (h : Laid s entry steps exit) :
    steps = [] ∧ exit = entry ∨ ∃ last ∈ steps.map Step.id, exit = [last] := by
  induction steps generalizing entry with
  | nil =>
    cases h
    exact .inl ⟨rfl, rfl⟩
  | cons step steps ih =>
    obtain ⟨-, -, hrest⟩ := h.head
    obtain ⟨-, rfl⟩ | ⟨last, hlast, rfl⟩ := ih hrest
    · exact .inr ⟨step.id, by simp, rfl⟩
    · exact .inr ⟨last, by simp [hlast], rfl⟩

lemma Laid.dependency (h : Laid s entry steps exit) {id d : String}
    (hid : id ∈ steps.map Step.id) (hd : d ∈ dependenciesOf s id) :
    d ∈ entry ∨ d ∈ steps.map Step.id := by
  induction steps generalizing entry with
  | nil => cases hid
  | cons step steps ih =>
    obtain ⟨hdeps, -, hrest⟩ := h.head
    rcases List.mem_cons.1 hid with rfl | hid
    · exact .inl ((hdeps d).1 hd)
    · rcases ih hrest hid with hd | hd
      · exact .inr (by simp [List.mem_singleton.1 hd])
      · exact .inr (List.mem_cons_of_mem _ hd)

lemma Laid.isChain (h : Laid s entry steps exit) :
    (steps.map Step.id).IsChain fun a b => a ∈ dependenciesOf s b := by
  induction steps generalizing entry with
  | nil => exact .nil
  | cons step steps ih =>
    obtain ⟨-, -, hrest⟩ := h.head
    cases steps with
    | nil => exact .singleton _
    | cons step' steps => exact .cons_cons ((hrest.head.1 _).2 (by simp)) (ih hrest)

lemma Laid.reaches (h : Laid s entry steps exit) {outer : String → Bool} {roots : List String}
    (hout : ∀ x ∈ steps.map Step.id, outer x = false)
    (hroots : steps ≠ [] → ∀ r ∈ exit, r ∈ roots) {x : String} (hx : x ∈ steps.map Step.id) :
    Reaches s (fun i => i.dependsOn.toList) outer roots x := by
  induction steps generalizing entry x with
  | nil => cases hx
  | cons step steps ih =>
    obtain ⟨-, hsome, hrest⟩ := h.head
    obtain ⟨i, hi⟩ := Option.isSome_iff_exists.1 hsome
    rw [List.map_cons, List.forall_mem_cons] at hout
    have hlater : ∀ x ∈ steps.map Step.id,
        Reaches s (fun i => i.dependsOn.toList) outer roots x :=
      fun x hx => ih hrest hout.2 (fun _ => hroots (by simp)) hx
    rcases List.mem_cons.1 hx with rfl | hx
    · cases steps with
      | nil =>
        cases hrest
        exact .root (hroots (by simp) _ (by simp)) hout.1 hi
      | cons step' steps =>
        obtain ⟨j, hj, hd⟩ := (mem_dependenciesOf s).1 ((hrest.head.1 step.id).2 (by simp))
        exact .step (hlater step'.id (by simp)) hj hd hout.1 hi
    · exact hlater x hx

end

/-! ### The unit of a line -/

section

variable {entry exit : List String} {steps : List Step} {outer : Std.TreeSet String}
  {roots : List String}

lemma Laid.mem_armIds (h : Laid s entry steps exit) (hentry : ∀ r ∈ entry, r ∈ outer)
    (hnew : ∀ x ∈ Step.idsOf steps, x ∉ outer) {r : String} :
    r ∈ armIds entry exit ↔ steps ≠ [] ∧ r ∈ exit := by
  unfold armIds
  obtain ⟨rfl, rfl⟩ | ⟨last, hlast, rfl⟩ := h.exit_eq
  · simp
  · have hne : [last] ≠ entry := by
      rintro rfl
      exact hnew last (mem_idsOf_of_mem_map hlast) (hentry last (by simp))
    have hsteps : steps ≠ [] := by
      rintro rfl
      cases hlast
    simp [hne, hsteps]

/-- **The members of a line's unit are its steps.** -/
lemma Laid.perm_members (h : Laid s entry steps exit) (hentry : ∀ r ∈ entry, r ∈ outer)
    (hnew : ∀ x ∈ Step.idsOf steps, x ∉ outer) (hnodup : (steps.map Step.id).Nodup)
    (hroots : ∀ r, r ∈ roots ↔ r ∈ armIds entry exit) :
    (steps.map Step.id).Perm (members s outer roots).keys := by
  rw [List.perm_ext_iff_of_nodup hnodup (members s outer roots).nodup_keys]
  intro x
  rw [mem_members_iff]
  constructor
  · refine h.reaches (fun x hx => ?_) (fun hne r hr => ?_)
    · exact (contains_eq_false_iff outer).2 (hnew x (mem_idsOf_of_mem_map hx))
    · exact (hroots r).2 ((h.mem_armIds hentry hnew).2 ⟨hne, hr⟩)
  · intro hx
    induction hx with
    | root hr _ _ =>
      obtain ⟨hne, hr⟩ := (h.mem_armIds hentry hnew).1 ((hroots _).1 hr)
      obtain ⟨hnil, -⟩ | ⟨last, hlast, rfl⟩ := h.exit_eq
      · exact absurd hnil hne
      · rwa [List.mem_singleton.1 hr]
    | step _ hi hd hout _ ih =>
      rcases h.dependency ih ((mem_dependenciesOf s).2 ⟨_, hi, hd⟩) with hd | hd
      · exact absurd (hentry _ hd) ((contains_eq_false_iff outer).1 hout)
      · exact hd

/-- A unit that holds the steps, but nothing of their arms, makes the steps of their ids. -/
def Rebuilt (s : InstructionSet) (entry : List String) (steps : List Step) : Prop :=
  ∀ ⦃outer : Std.TreeSet String⦄ ⦃roots : List String⦄ ⦃arms : Roster (Plan × Plan)⦄
    ⦃order : List String⦄ ⦃plan : Plan⦄, Assembled s outer roots arms order plan →
    (∀ x ∈ steps.map Step.id, x ∈ (members s outer roots).keys) →
    (∀ r ∈ entry, r ∈ inner s outer roots) →
    (∀ x ∈ Step.idsOf steps, x ∉ steps.map Step.id → x ∉ inner s outer roots) →
    (steps.map Step.id).map (stepOf arms) = steps

lemma Laid.steps_of_unit (h : Laid s entry steps exit) (hsteps : Rebuilt s entry steps)
    (hentry : ∀ r ∈ entry, r ∈ outer) (hnew : ∀ x ∈ Step.idsOf steps, x ∉ outer)
    (hnodup : (Step.idsOf steps).Nodup) (hroots : ∀ r, r ∈ roots ↔ r ∈ armIds entry exit)
    {plan : Plan} (hplan : unit s roots outer = .ok plan) : plan.steps = steps := by
  obtain ⟨arms, order, ha⟩ := assembled_of_unit hplan
  have hperm := h.perm_members hentry hnew (hnodup.sublist (map_id_sublist_idsOf steps)) hroots
  have horder : order = steps.map Step.id := by
    refine ha.isOrder.eq_of_chain hperm ?_
    exact h.isChain.imp fun a b hab => List.mem_append_left _ hab
  rw [ha.steps, horder]
  refine hsteps ha (fun x hx => hperm.mem_iff.1 hx)
    (fun r hr => (mem_inner s outer roots).2 (.inl (hentry r hr))) fun x hx hnot hinner => ?_
  rcases (mem_inner s outer roots).1 hinner with hout | hmem
  · exact hnew x hx hout
  · exact hnot (hperm.mem_iff.2 hmem)

lemma Rebuilt.cons {step : Step} (hstep : ∀ outer roots arms order plan,
      Assembled s outer roots arms order plan → step.id ∈ (members s outer roots).keys →
      (∀ r ∈ entry, r ∈ inner s outer roots) →
      (∀ x ∈ step.ids, x ≠ step.id → x ∉ inner s outer roots) → stepOf arms step.id = step)
    (hrest : Rebuilt s [step.id] steps) (hnodup : (Step.idsOf (step :: steps)).Nodup) :
    Rebuilt s entry (step :: steps) := by
  intro outer roots arms order plan ha hmembers hentry hnew
  rw [Step.idsOf, List.nodup_append] at hnodup
  rw [List.map_cons, List.forall_mem_cons] at hmembers
  rw [List.map_cons, List.map_cons, List.cons.injEq]
  constructor
  · refine hstep _ _ _ _ _ ha hmembers.1 hentry fun x hx hne => hnew x ?_ ?_
    · rw [Step.idsOf]
      exact List.mem_append_left _ hx
    · rw [List.map_cons, List.mem_cons]
      rintro (rfl | hmem)
      · exact hne rfl
      · exact hnodup.2.2 x hx x (mem_idsOf_of_mem_map hmem) rfl
  · refine hrest ha hmembers.2 (fun r hr => ?_) fun x hx hnot => hnew x ?_ ?_
    · rw [List.mem_singleton.1 hr]
      exact (mem_inner s outer roots).2 (.inr hmembers.1)
    · rw [Step.idsOf]
      exact List.mem_append_right _ hx
    · rw [List.map_cons, List.mem_cons]
      rintro (rfl | hmem)
      · exact hnodup.2.2 _ (by cases step <;> simp [Step.id, Step.ids]) _ hx rfl
      · exact hnot hmem

/-- **What is laid is rebuilt**, at every depth. -/
theorem Laid.rebuilt (h : Laid s entry steps exit) (hnodup : (Step.idsOf steps).Nodup) :
    Rebuilt s entry steps := by
  induction h with
  | nil => exact fun _ _ _ _ _ _ _ _ _ => rfl
  | @run entry exit id i rest hi hdeps harms _ ih =>
    refine .cons (fun outer roots arms order plan ha _ _ _ => ?_) (ih ?_) hnodup
    · -- the instruction is no branch, so the unit has no arms for it
      have hnone : arms.get? id = none := by
        rw [Option.eq_none_iff_forall_ne_some]
        rintro ⟨y, n⟩ hget
        obtain ⟨-, yes, no, harm, -⟩ := (ha.arms_iff id y n).1 hget
        obtain ⟨j, hj, harm⟩ := (armsOf_eq_some s).1 harm
        obtain rfl := Option.some.inj (hi.symm.trans hj)
        exact absurd (harms.symm.trans harm) (by simp)
      simp only [Step.id, stepOf, hnone]
    · exact hnodup.sublist (List.sublist_append_right _ _)
  | @branch entry yesExit noExit exit id i yes no rest hi hdeps harms hyes hno _ ihyes ihno ih =>
    rw [Step.idsOf, Step.ids] at hnodup
    have hparts : (Step.idsOf yes ++ Step.idsOf no ++ [id]).Nodup :=
      hnodup.sublist (List.sublist_append_left _ _)
    have hyesNodup : (Step.idsOf yes).Nodup :=
      hparts.sublist ((List.sublist_append_left _ _).trans (List.sublist_append_left _ _))
    have hnoNodup : (Step.idsOf no).Nodup :=
      hparts.sublist ((List.sublist_append_right _ _).trans (List.sublist_append_left _ _))
    refine .cons (fun outer roots arms order plan ha hid hentry hnew => ?_)
      (ih (hnodup.sublist (List.sublist_append_right _ _))) (by rwa [Step.idsOf, Step.ids])
    obtain ⟨y, n, hget⟩ := ha.arms_total id hid _ ((armsOf_eq_some s).2 ⟨i, hi, harms⟩)
    obtain ⟨-, yes', no', harm, hy, hn⟩ := (ha.arms_iff id y n).1 hget
    obtain ⟨j, hj, harm⟩ := (armsOf_eq_some s).1 harm
    obtain rfl := Option.some.inj (hi.symm.trans hj)
    obtain ⟨rfl, rfl⟩ := Prod.mk.inj (Option.some.inj (harms.symm.trans harm))
    -- nothing of the arms is in the units around them
    have hinner : ∀ x ∈ Step.idsOf yes ++ Step.idsOf no, x ∉ inner s outer roots := by
      intro x hx
      refine hnew x ?_ ?_
      · rw [Step.ids]
        exact List.mem_append_left _ hx
      · rintro rfl
        exact (List.nodup_append.1 hparts).2.2 _ hx _ (by simp) rfl
    have hyesSteps := hyes.steps_of_unit (ihyes hyesNodup) hentry
      (fun x hx => hinner x (List.mem_append_left _ hx)) hyesNodup
      (fun r => NameSet.mem_ofList) hy
    have hnoSteps := hno.steps_of_unit (ihno hnoNodup) hentry
      (fun x hx => hinner x (List.mem_append_right _ hx)) hnoNodup
      (fun r => NameSet.mem_ofList) hn
    simp only [Step.id, stepOf, hget, hyesSteps, hnoSteps]

end

end Sequence

/-! ### Sequences -/

namespace InstructionSet

def Refers (s : InstructionSet) (id r : String) : Prop :=
  ∃ i, s.get? id = some i ∧ r ∈ i.references

variable {s : InstructionSet}

lemma Backward.rank_lt (h : s.Backward) {id r : String} (hr : Relation.TransGen s.Refers id r) :
    ∃ j k, s.rank? r = some j ∧ s.rank? id = some k ∧ j < k := by
  induction hr with
  | single hr =>
    obtain ⟨i, hi, hr⟩ := hr
    exact h _ i hi _ hr
  | tail _ hr ih =>
    obtain ⟨i, hi, hr⟩ := hr
    obtain ⟨j, k, hj, hk, hlt⟩ := ih
    obtain ⟨j', k', hj', hk', hlt'⟩ := h _ i hi _ hr
    obtain rfl := Option.some.inj (hj.symm.trans hk')
    exact ⟨j', k, hj', hk, Nat.lt_trans hlt' hlt⟩

lemma Backward.acyclic (h : s.Backward) (id : String) : ¬Relation.TransGen s.Refers id id := by
  intro hid
  obtain ⟨j, k, hj, hk, hlt⟩ := h.rank_lt hid
  obtain rfl := Option.some.inj (hj.symm.trans hk)
  exact Nat.lt_irrefl _ hlt

lemma Backward.exists_get? (h : s.Backward) {id : String} {i : Instruction}
    (hi : s.get? id = some i) {r : String} (hr : r ∈ i.references) : ∃ j, s.get? r = some j := by
  obtain ⟨j, -, hj, -⟩ := h id i hi r hr
  rw [← mem_ids_iff, ← contains_iff, contains, Roster.contains]
  exact Option.isSome_iff_exists.2 ⟨j, hj⟩

lemma Backward.descends (h : s.Backward) :
    Schedule.Descends s (fun id => (s.rank? id).getD 0) (· ∈ s.ids) := by
  intro id hid i hi r hr
  obtain ⟨j, k, hj, hk, hlt⟩ := h id i hi r hr
  refine ⟨mem_ids_iff.2 (h.exists_get? hi hr), ?_⟩
  simpa only [hj, hk, Option.getD_some] using hlt

end InstructionSet

namespace Sequence

/-- **A sequence means what it says.** Statements that leave ids and dependencies to the sequence
are all built. What is built refers to registered instructions only and never in a circle, and the
schedule of its state mirrors the statements: there is one step for each, in their order, and a
branch has steps for the statements of its arms. Every registered instruction is one of the
steps. -/
theorem schedule_mirrors_statements (label : String) {sts : List Statement}
    (h : ∀ st ∈ sts, st.Plain) (next : String) : ∃ reports q steps,
      build label sts = (reports, .ok q) ∧
      (∀ id i, q.instructions.get? id = some i → ∀ r ∈ i.references,
        ∃ j, q.instructions.get? r = some j) ∧
      (∀ id, ¬Relation.TransGen q.instructions.Refers id id) ∧
      Schedule.ofRoots q.instructions (q.toState next).roots = .ok steps ∧
      Mirrored q.instructions sts reports steps ∧ Step.idsOf steps = q.instructions.ids := by
  obtain ⟨reports, steps, q, hbuild, hgrown⟩ := build_grown label h
  have hback := hgrown.good.backward
  have hids : Step.idsOf steps = q.instructions.ids := hgrown.ids.symm
  have hnodup : (Step.idsOf steps).Nodup := hids ▸ Roster.nodup_keys _
  obtain ⟨plan, hplan, -⟩ :=
    Schedule.exists_unit_of_descends hback.descends ∅ q.frontier hgrown.good.frontier
  have hroots : ∀ r, r ∈ q.frontier ↔ r ∈ armIds [] q.frontier := by
    intro r
    unfold armIds
    split <;> simp_all
  have hsteps : plan.steps = steps := hgrown.laid.steps_of_unit (hgrown.laid.rebuilt hnodup)
    (by simp) (by simp) hnodup hroots hplan
  refine ⟨reports, q, steps, hbuild, fun id i hi r hr => hback.exists_get? hi hr, hback.acyclic,
    bind_eq_ok.2 ⟨plan, hplan, ?_⟩, hgrown.mirrored, hids⟩
  rw [hsteps]
  rfl

def tryAndJudge : List Statement := [
  .assign "k" (.binary .mul (.var "<dt>") (.var "<state>y")),
  .branch (.binary .lt (.var "k") (.literal (.scalar 1))) [
      .assign "<state>y" (.var "k"),
      .branch (.binary .lt (.var "<t>") (.var "k")) [] [.transition "done"],
      .emit (.var "<state>y") "y" (.var "<t>") "final"]
    [.fail],
  .assign "<t>" (.binary .add (.var "<t>") (.var "<dt>"))]

theorem schedule_mirrors_tryAndJudge : (∀ st ∈ tryAndJudge, st.Plain) ∧ ∃ reports q steps,
    build "s" tryAndJudge = (reports, .ok q) ∧
    (∀ id i, q.instructions.get? id = some i → ∀ r ∈ i.references,
      ∃ j, q.instructions.get? r = some j) ∧
    (∀ id, ¬Relation.TransGen q.instructions.Refers id id) ∧
    Schedule.ofRoots q.instructions (q.toState "s").roots = .ok steps ∧
    Mirrored q.instructions tryAndJudge reports steps ∧
    Step.idsOf steps = q.instructions.ids := by
  have hplain : ∀ st ∈ tryAndJudge, st.Plain := by
    simp only [tryAndJudge, List.forall_mem_cons, List.not_mem_nil, false_imp_iff,
      implies_true, and_true]
    refine ⟨.instruction (by simp), .branch ?_ ?_, .instruction (by simp)⟩
    · simp only [List.forall_mem_cons, List.not_mem_nil, false_imp_iff, implies_true, and_true]
      refine ⟨.instruction (by simp), .branch (by simp) ?_, .instruction (by simp)⟩
      simpa using .transition "done"
    · simpa using .instruction (by simp)
  exact ⟨hplain, schedule_mirrors_statements "s" hplain "s"⟩

end Sequence

end TimeMarch
