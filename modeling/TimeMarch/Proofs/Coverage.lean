import TimeMarch.Proofs.Readiness
import TimeMarch.Proofs.WellFormedness

/-!
# Schedules Cover What Is Reachable

A state's reach is found by one walk over all references. A schedule is found by many walks, one for
each unit, which turn back at whatever the units around hold. They come to the same: where a walk
turns back, a unit around has listed the id already, so nothing is lost, and nothing that a unit
lists comes up again in the arms below it. No instruction set need have passed any check for this;
references may dangle, and arms may contain each other.
-/

namespace TimeMarch

/-- The units of a schedule: the schedule as a whole, and the arms of the branches in its units. -/
inductive Step.UnitOf (steps : List Step) : List Step → Prop where
  | whole : UnitOf steps steps
  | yes {unit yes no : List Step} {id : String} (h : UnitOf steps unit)
      (hb : .branch id yes no ∈ unit) : UnitOf steps yes
  | no {unit yes no : List Step} {id : String} (h : UnitOf steps unit)
      (hb : .branch id yes no ∈ unit) : UnitOf steps no

lemma Instruction.arms?_eq_some {i : Instruction} {yes no : NameSet} :
    i.arms? = some (yes, no) ↔ ∃ condition, i.action = .branch condition yes no := by
  obtain ⟨id, dependsOn, action⟩ := i
  cases action <;> simp [arms?]

namespace Schedule

open TimeMarch.Graph

/-- References lead from the roots and from the ids only to outer ids and to the ids themselves,
where they lead to anything registered. -/
structure Covers (s : InstructionSet) (outer : Std.TreeSet String) (roots ids : List String) :
    Prop where
  root : ∀ r ∈ roots, r ∈ s.ids → r ∈ outer ∨ r ∈ ids
  reference : ∀ id ∈ ids, ∀ i, s.get? id = some i → ∀ r ∈ i.references, r ∈ s.ids →
    r ∈ outer ∨ r ∈ ids

section

variable {s : InstructionSet} {outer : Std.TreeSet String} {roots : List String}
  {arms : Roster (Plan × Plan)} {order : List String} {plan : Plan}

lemma id_stepOf (arms : Roster (Plan × Plan)) (m : String) : (stepOf arms m).id = m := by
  unfold stepOf
  split <;> rfl

lemma Assembled.map_id (h : Assembled s outer roots arms order plan) :
    plan.steps.map Step.id = order := by
  rw [h.steps, List.map_map]
  exact (List.map_congr_left fun m _ => id_stepOf arms m).trans (List.map_id order)

lemma Assembled.mem_idsOf (h : Assembled s outer roots arms order plan) {x : String} :
    x ∈ Step.idsOf plan.steps ↔ x ∈ (members s outer roots).keys ∨
      ∃ m y n, arms.get? m = some (y, n) ∧ (x ∈ Step.idsOf y.steps ∨ x ∈ Step.idsOf n.steps) := by
  rw [h.steps, mem_idsOf_map_stepOf]
  constructor
  · rintro ⟨m, hm, rfl | ⟨y, n, hget, hx⟩⟩
    · exact .inl (h.isOrder.perm.mem_iff.1 hm)
    · exact .inr ⟨m, y, n, hget, hx⟩
  · rintro (hx | ⟨m, y, n, hget, hx⟩)
    · exact ⟨x, h.isOrder.perm.mem_iff.2 hx, .inl rfl⟩
    · exact ⟨m, h.isOrder.perm.mem_iff.2 ((h.arms_iff m y n).1 hget).1, .inr ⟨y, n, hget, hx⟩⟩

lemma Assembled.branch_mem (h : Assembled s outer roots arms order plan) {b : String}
    {yes no : List Step} (hb : .branch b yes no ∈ plan.steps) :
    ∃ y n, arms.get? b = some (y, n) ∧ y.steps = yes ∧ n.steps = no := by
  rw [h.steps, List.mem_map] at hb
  obtain ⟨m, -, hm⟩ := hb
  unfold stepOf at hm
  split at hm
  · rename_i y n hget
    cases hm
    exact ⟨y, n, hget, rfl, rfl⟩
  · cases hm

lemma Assembled.of_arm (h : Assembled s outer roots arms order plan) {m r : String} {y n : Plan}
    (hget : arms.get? m = some (y, n))
    (hr : r ∈ inner s outer roots ∨ r ∈ Step.idsOf y.steps ∨ r ∈ Step.idsOf n.steps) :
    r ∈ outer ∨ r ∈ Step.idsOf plan.steps := by
  rw [h.mem_idsOf]
  rcases hr with hr | hr
  · rcases (mem_inner s outer roots).1 hr with hout | hmem
    · exact .inl hout
    · exact .inr (.inl hmem)
  · exact .inr (.inr ⟨m, y, n, hget, hr⟩)

/-- **Nothing is lost**: what a unit does not hold itself, a unit around it holds. -/
theorem covers_of_unit (h : unit s roots outer = .ok plan) :
    Covers s outer roots (Step.idsOf plan.steps) := by
  refine unit_induction
    (P := fun roots outer plan => Covers s outer roots (Step.idsOf plan.steps)) ?_ h
  intro roots outer arms order plan h ih
  constructor
  · intro r hr hreg
    obtain ⟨j, hj⟩ := InstructionSet.mem_ids_iff.1 hreg
    by_cases hout : r ∈ outer
    · exact .inl hout
    · exact .inr (h.mem_idsOf.2 (.inl (mem_members_of_root s outer roots hr hout hj)))
  · intro id hid i hi r hr hreg
    rcases h.mem_idsOf.1 hid with hmem | ⟨m, y, n, hget, hid⟩
    · rcases Instruction.mem_references.1 hr with hd | ⟨condition, yes, no, haction, ha⟩
      · obtain ⟨j, hj⟩ := InstructionSet.mem_ids_iff.1 hreg
        by_cases hout : r ∈ outer
        · exact .inl hout
        · have hd' : r ∈ dependenciesOf s id := (mem_dependenciesOf s).2 ⟨i, hi, hd⟩
          have hr' := mem_members_of_dependency s outer roots hmem hd' hout hj
          exact .inr (h.mem_idsOf.2 (.inl hr'))
      · -- an arm of a branch in the unit itself: the id is one of its roots
        have harm : armsOf s id = some (yes, no) :=
          (armsOf_eq_some s).2 ⟨i, hi, Instruction.arms?_eq_some.2 ⟨condition, haction⟩⟩
        obtain ⟨y, n, hget⟩ := h.arms_total id hmem _ harm
        obtain ⟨yes', no', harm', hy, hn⟩ := ih hget
        obtain ⟨rfl, rfl⟩ := Prod.mk.inj (Option.some.inj (harm.symm.trans harm'))
        apply h.of_arm hget
        rcases ha with ha | ha
        · exact (hy.root r ha hreg).imp_right .inl
        · exact (hn.root r ha hreg).imp_right .inr
    · -- an id within an arm refers to ids of that arm and to what is outer there
      obtain ⟨yes, no, -, hy, hn⟩ := ih hget
      apply h.of_arm hget
      rcases hid with hid | hid
      · exact (hy.reference id hid i hi r hr hreg).imp_right .inl
      · exact (hn.reference id hid i hi r hr hreg).imp_right .inr

/-- **Nothing is repeated below**: no unit holds an outer id, in whatever arm. -/
theorem notMem_outer_of_mem_idsOf (h : unit s roots outer = .ok plan) {x : String}
    (hx : x ∈ Step.idsOf plan.steps) : x ∉ outer := by
  revert x
  refine unit_induction
    (P := fun _ outer plan => ∀ {x : String}, x ∈ Step.idsOf plan.steps → x ∉ outer) ?_ h
  intro roots outer arms order plan h ih x hx
  rcases h.mem_idsOf.1 hx with hmem | ⟨m, y, n, hget, hx⟩
  · exact notMem_outer_of_mem_members s outer roots hmem
  · obtain ⟨yes, no, -, hy, hn⟩ := ih hget
    have hinner : x ∉ inner s outer roots := hx.elim hy hn
    exact fun hout => hinner ((mem_inner s outer roots).2 (.inl hout))

/-- Every unit of a schedule has been scheduled as one. -/
lemma exists_assembled_of_unitOf (h : unit s roots outer = .ok plan) {u : List Step}
    (hu : Step.UnitOf plan.steps u) :
    ∃ outer' roots' arms order plan', Assembled s outer' roots' arms order plan' ∧
      plan'.steps = u := by
  induction hu with
  | whole =>
    obtain ⟨arms, order, ha⟩ := assembled_of_unit h
    exact ⟨outer, roots, arms, order, plan, ha, rfl⟩
  | yes _ hb ih =>
    obtain ⟨outer', roots', arms, order, plan', ha, rfl⟩ := ih
    obtain ⟨y, n, hget, rfl, -⟩ := ha.branch_mem hb
    obtain ⟨-, yes, -, -, hy, -⟩ := (ha.arms_iff _ y n).1 hget
    obtain ⟨arms', order', ha'⟩ := assembled_of_unit hy
    exact ⟨_, _, arms', order', y, ha', rfl⟩
  | no _ hb ih =>
    obtain ⟨outer', roots', arms, order, plan', ha, rfl⟩ := ih
    obtain ⟨y, n, hget, -, rfl⟩ := ha.branch_mem hb
    obtain ⟨-, -, no, -, -, hn⟩ := (ha.arms_iff _ y n).1 hget
    obtain ⟨arms', order', ha'⟩ := assembled_of_unit hn
    exact ⟨_, _, arms', order', n, ha', rfl⟩

lemma Assembled.nodup_ids (h : Assembled s outer roots arms order plan) :
    (plan.steps.map Step.id).Nodup := by
  rw [h.map_id]
  exact h.isOrder.perm.nodup_iff.2 (Roster.nodup_keys _)

lemma Assembled.notMem_arms (h : Assembled s outer roots arms order plan) {b : String}
    {yes no : List Step} (hb : .branch b yes no ∈ plan.steps) {id : String}
    (hid : id ∈ plan.steps.map Step.id) : id ∉ Step.idsOf yes ∧ id ∉ Step.idsOf no := by
  obtain ⟨y, n, hget, rfl, rfl⟩ := h.branch_mem hb
  obtain ⟨-, yes, no, -, hy, hn⟩ := (h.arms_iff b y n).1 hget
  rw [h.map_id, h.isOrder.perm.mem_iff] at hid
  have hinner : id ∈ inner s outer roots := (mem_inner s outer roots).2 (.inr hid)
  exact ⟨fun hx => notMem_outer_of_mem_idsOf hy hx hinner,
    fun hx => notMem_outer_of_mem_idsOf hn hx hinner⟩

lemma Assembled.isBranch_iff (h : Assembled s outer roots arms order plan) {step : Step}
    (hstep : step ∈ plan.steps) :
    (∃ yes no, step = .branch step.id yes no) ↔
      ∃ i condition yes no, s.get? step.id = some i ∧ i.action = .branch condition yes no := by
  rw [h.steps, List.mem_map] at hstep
  obtain ⟨m, hm, rfl⟩ := hstep
  rw [id_stepOf]
  constructor
  · rintro ⟨yes, no, heq⟩
    have hb : .branch m yes no ∈ plan.steps := by
      rw [h.steps, ← heq]
      exact List.mem_map_of_mem hm
    obtain ⟨y, n, hget, -, -⟩ := h.branch_mem hb
    obtain ⟨-, yes, no, harm, -, -⟩ := (h.arms_iff m y n).1 hget
    obtain ⟨i, hi, harms⟩ := (armsOf_eq_some s).1 harm
    obtain ⟨condition, haction⟩ := Instruction.arms?_eq_some.1 harms
    exact ⟨i, condition, yes, no, hi, haction⟩
  · rintro ⟨i, condition, yes, no, hi, haction⟩
    have harm : armsOf s m = some (yes, no) :=
      (armsOf_eq_some s).2 ⟨i, hi, Instruction.arms?_eq_some.2 ⟨condition, haction⟩⟩
    obtain ⟨y, n, hget⟩ := h.arms_total m (h.isOrder.perm.mem_iff.1 hm) _ harm
    exact ⟨y.steps, n.steps, by rw [stepOf, hget]⟩

lemma Covers.mem_of_reachable {ids : List String} (h : Covers s ∅ roots ids) {id : String}
    (hid : Reachable s roots id) : id ∈ ids := by
  have hinside : ∀ {r}, r ∈ (∅ : Std.TreeSet String) ∨ r ∈ ids → r ∈ ids :=
    fun hr => hr.resolve_left (by simp)
  induction hid with
  | root hr _ hi => exact hinside (h.root _ hr (InstructionSet.mem_ids_iff.2 ⟨_, hi⟩))
  | step _ hi hr _ hi' ih =>
    exact hinside (h.reference _ ih _ hi _ hr (InstructionSet.mem_ids_iff.2 ⟨_, hi'⟩))

end

/-- **A schedule goes over exactly what its roots reach.** Its units list their ids once each and
not again in the arms below, and the branches in it are those among the instructions. -/
theorem schedule_covers_reachable {s : InstructionSet} {roots : List String} {steps : List Step}
    (h : ofRoots s roots = .ok steps) :
    (∀ id, id ∈ Step.idsOf steps ↔ id ∈ (reachable s roots).keys) ∧
      ∀ unit, Step.UnitOf steps unit →
        (unit.map Step.id).Nodup ∧
        (∀ b yes no, .branch b yes no ∈ unit → ∀ id ∈ unit.map Step.id,
          id ∉ Step.idsOf yes ∧ id ∉ Step.idsOf no) ∧
        ∀ step ∈ unit, (∃ yes no, step = .branch step.id yes no) ↔
          ∃ i condition yes no, s.get? step.id = some i ∧ i.action = .branch condition yes no := by
  obtain ⟨plan, hplan, hsteps⟩ := bind_eq_ok.1 h
  obtain rfl : plan.steps = steps := Except.ok.inj hsteps
  constructor
  · intro id
    rw [mem_reachable_iff]
    exact ⟨reachable_of_mem_idsOf hplan, (covers_of_unit hplan).mem_of_reachable⟩
  · intro u hu
    obtain ⟨outer, roots', arms, order, plan', ha, rfl⟩ := exists_assembled_of_unitOf hplan hu
    exact ⟨ha.nodup_ids, fun b yes no hb id hid => ha.notMem_arms hb hid,
      fun step hstep => ha.isBranch_iff hstep⟩

/-- Two branches that contain each other, an arm that depends on its branch, and a dependency that
nothing is registered for. -/
def circleOfArms : InstructionSet :=
  (InstructionSet.empty.addAll [
    ⟨"a", .ofList ["first", "gone"], .branch (.var "c") (.ofList ["b"]) ∅⟩,
    ⟨"b", ∅, .branch (.var "c") (.ofList ["a", "first"]) (.ofList ["last"])⟩,
    ⟨"last", .ofList ["b"], .abort⟩,
    ⟨"first", ∅, .assign "c" (.literal (.bool true))⟩]).toOption.getD .empty

theorem schedule_covers_reachable_circle : ∃ steps,
    ofRoots circleOfArms ["a"] = .ok steps ∧ Step.idsOf steps = ["first", "last", "b", "a"] ∧
    (∀ id, id ∈ Step.idsOf steps ↔ id ∈ (reachable circleOfArms ["a"]).keys) ∧
      ∀ unit, Step.UnitOf steps unit →
        (unit.map Step.id).Nodup ∧
        (∀ b yes no, .branch b yes no ∈ unit → ∀ id ∈ unit.map Step.id,
          id ∉ Step.idsOf yes ∧ id ∉ Step.idsOf no) ∧
        ∀ step ∈ unit, (∃ yes no, step = .branch step.id yes no) ↔
          ∃ i condition yes no, circleOfArms.get? step.id = some i ∧
            i.action = .branch condition yes no := by
  have hids : (ofRoots circleOfArms ["a"]).toOption.map Step.idsOf =
      some ["first", "last", "b", "a"] := by decide +kernel
  obtain ⟨steps, hsteps, hids⟩ := Option.map_eq_some_iff.1 hids
  have hsteps := toOption_eq_some.1 hsteps
  exact ⟨steps, hsteps, hids, schedule_covers_reachable hsteps⟩

end Schedule

end TimeMarch
