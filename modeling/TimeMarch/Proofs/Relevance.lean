import Mathlib.Data.List.Pairwise
import TimeMarch.Proofs.Batches
import TimeMarch.Proofs.LeastOrder
import TimeMarch.Proofs.Repetition

/-!
# What a Schedule Depends On

Of an instruction set a schedule sees the part that its roots reach, and of the order of
registration it sees which of two instructions in that part came first. The order in which the
roots are listed decides in which order the members of a unit are discovered and its arms are
scheduled, but not what comes out: members are ordered by their turns, arms are looked up by their
branch, and what a unit relies on is a set.
-/

namespace TimeMarch

open Relation

namespace InstructionSet

/-- The instructions that the roots reach, in the order of registration. -/
def part (s : InstructionSet) (roots : List String) : List Instruction :=
  s.toList.filter fun i => (Graph.reachable s roots).contains i.id

variable {s t u : InstructionSet}

lemma mem_part {roots : List String} {i : Instruction} :
    i ∈ s.part roots ↔ i ∈ s.toList ∧ Graph.Reachable s roots i.id := by
  rw [part, List.mem_filter, Roster.contains_iff, Graph.mem_reachable_iff]

lemma exists_mem_part_of_reachable {roots : List String} {id : String}
    (h : Graph.Reachable s roots id) : ∃ i ∈ s.part roots, i.id = id := by
  obtain ⟨i, hi⟩ := h.exists_get?
  obtain ⟨hmem, rfl⟩ := Graph.mem_toList_of_get? hi
  exact ⟨i, mem_part.2 ⟨hmem, h⟩, rfl⟩

lemma toList_union (h : s.union t = .ok u) : u.toList = s.toList ++ t.toList :=
  toList_addAll h

end InstructionSet

namespace Schedule

open TimeMarch.Graph

/-! ### Turns -/

section Turns

variable {s s' : InstructionSet}

lemma pairwise_before (s : InstructionSet) :
    s.toList.Pairwise fun i j => Before (rankOf s) i.id j.id := by
  rw [List.pairwise_iff_getElem]
  intro a b ha hb hab
  have hranka := InstructionSet.rank?_of_getElem? (List.getElem?_eq_getElem ha)
  have hrankb := InstructionSet.rank?_of_getElem? (List.getElem?_eq_getElem hb)
  left
  rw [rankOf, rankOf, hranka, hrankb]
  exact hab

lemma before_iff_of_sublist {l : List Instruction} (hl : l.Sublist s.toList)
    (hl' : l.Sublist s'.toList) {i j : Instruction} (hi : i ∈ l) (hj : j ∈ l) :
    Before (rankOf s') i.id j.id ↔ Before (rankOf s) i.id j.id := by
  let same (i j : Instruction) : Prop :=
    (Before (rankOf s') i.id j.id ↔ Before (rankOf s) i.id j.id) ∧
      (Before (rankOf s') j.id i.id ↔ Before (rankOf s) j.id i.id)
  have hsymm : Std.Symm same := ⟨fun _ _ h => ⟨h.2, h.1⟩⟩
  have hirrefl : ∀ rank (x : String), ¬Before rank x x := fun rank x h => h.asymm h
  have hpair : l.Pairwise same := by
    apply ((pairwise_before s).sublist hl).and ((pairwise_before s').sublist hl') |>.imp
    rintro i j ⟨h, h'⟩
    exact ⟨iff_of_true h' h, iff_of_false h'.asymm h.asymm⟩
  have hself : ∀ i ∈ l, same i i := by
    intro i _
    exact ⟨iff_of_false (hirrefl _ _) (hirrefl _ _), iff_of_false (hirrefl _ _) (hirrefl _ _)⟩
  exact (hpair.forall_of_forall hself hi hj).1

end Turns

/-! ### Sets that agree -/

/-- Two instruction sets agree on some ids: the ids have the same instructions, refer only to each
other, and have the same turns. -/
structure Agree (s s' : InstructionSet) (ids : String → Prop) : Prop where
  get?_eq : ∀ {id}, ids id → s'.get? id = s.get? id
  closed : ∀ {id i}, ids id → s.get? id = some i → ∀ r ∈ i.references, ids r
  turns : ∀ {a b i j}, ids a → ids b → s.get? a = some i → s.get? b = some j →
    (Before (rankOf s') a b ↔ Before (rankOf s) a b)

namespace Agree

variable {s s' : InstructionSet} {ids : String → Prop}

lemma symm (h : Agree s s' ids) : Agree s' s ids where
  get?_eq hid := (h.get?_eq hid).symm
  closed hid hi := h.closed hid ((h.get?_eq hid).symm.trans hi)
  turns ha hb hi hj :=
    (h.turns ha hb ((h.get?_eq ha).symm.trans hi) ((h.get?_eq hb).symm.trans hj)).symm

lemma of_sublist {l : List Instruction} (hl : l.Sublist s.toList) (hl' : l.Sublist s'.toList)
    (hids : ∀ {id}, ids id → (∃ i ∈ l, i.id = id) ∨ s.get? id = none ∧ s'.get? id = none)
    (hclosed : ∀ {id i}, ids id → s.get? id = some i → ∀ r ∈ i.references, ids r) :
    Agree s s' ids where
  get?_eq hid := by
    rcases hids hid with ⟨i, hi, rfl⟩ | ⟨hnone, hnone'⟩
    · rw [InstructionSet.get?_of_mem_toList (hl.subset hi),
        InstructionSet.get?_of_mem_toList (hl'.subset hi)]
    · rw [hnone, hnone']
  closed := hclosed
  turns {a b i j} ha hb hi hj := by
    have hlisted : ∀ {x k}, ids x → s.get? x = some k → ∃ i ∈ l, i.id = x := fun hx hk =>
      (hids hx).resolve_right fun hnone => by simp [hk] at hnone
    obtain ⟨i, hil, rfl⟩ := hlisted ha hi
    obtain ⟨j, hjl, rfl⟩ := hlisted hb hj
    exact before_iff_of_sublist hl hl' hil hjl

/-! ### Units of sets that agree -/

section

variable {roots roots' : List String} {outer outer' : Std.TreeSet String}

lemma dependenciesOf_eq (h : Agree s s' ids) {id : String} (hid : ids id) :
    dependenciesOf s' id = dependenciesOf s id := by
  rw [dependenciesOf, dependenciesOf, h.get?_eq hid]

lemma armsOf_eq (h : Agree s s' ids) {id : String} (hid : ids id) :
    armsOf s' id = armsOf s id := by
  rw [armsOf, armsOf, h.get?_eq hid]

lemma mem_members (h : Agree s s' ids) (hids : ∀ r ∈ roots, ids r)
    (hroots : ∀ r, r ∈ roots' ↔ r ∈ roots) (houter : ∀ x, x ∈ outer' ↔ x ∈ outer) {id : String}
    (hid : id ∈ (members s outer roots).keys) :
    ids id ∧ id ∈ (members s' outer' roots').keys := by
  have hout : ∀ {x}, outer.contains x = false → outer'.contains x = false := by
    intro x hx
    rw [contains_eq_false_iff] at hx ⊢
    rwa [houter]
  rw [mem_members_iff] at hid ⊢
  induction hid with
  | root hr hx hi =>
    exact ⟨hids _ hr, .root ((hroots _).2 hr) (hout hx) ((h.get?_eq (hids _ hr)).trans hi)⟩
  | step _ hi hd hx hi' ih =>
    have hd' := h.closed ih.1 hi _ (mem_references_of_dependsOn hd)
    exact ⟨hd', .step ih.2 ((h.get?_eq ih.1).trans hi) hd (hout hx) ((h.get?_eq hd').trans hi')⟩

lemma mem_members_iff (h : Agree s s' ids) (hids : ∀ r ∈ roots, ids r)
    (hroots : ∀ r, r ∈ roots' ↔ r ∈ roots) (houter : ∀ x, x ∈ outer' ↔ x ∈ outer) (id : String) :
    id ∈ (members s' outer' roots').keys ↔ id ∈ (members s outer roots).keys := by
  have hids' : ∀ r ∈ roots', ids r := fun r hr => hids r ((hroots r).1 hr)
  constructor
  · intro hid
    exact (h.symm.mem_members hids' (fun r => (hroots r).symm) (fun x => (houter x).symm) hid).2
  · intro hid
    exact (h.mem_members hids hroots houter hid).2

lemma assemble_ok (h : Agree s s' ids) (hids : ∀ r ∈ roots, ids r)
    (hroots : ∀ r, r ∈ roots' ↔ r ∈ roots) (houter : ∀ x, x ∈ outer' ↔ x ∈ outer)
    {arms arms' : Roster (Plan × Plan)} (hget : ∀ id, arms'.get? id = arms.get? id) {plan : Plan}
    (hplan : assemble s (members s outer roots) (metOuter s outer roots (members s outer roots))
      arms = .ok plan) :
    assemble s' (members s' outer' roots') (metOuter s' outer' roots' (members s' outer' roots'))
      arms' = .ok plan := by
  obtain ⟨order, horder, hsteps, hneeds⟩ := assemble_eq_ok.1 hplan
  have hmem := h.mem_members_iff hids hroots houter
  have hmember : ∀ {id}, id ∈ (members s outer roots).keys → ids id := fun hid =>
    (h.mem_members hids hroots houter hid).1
  have hcontains : (members s' outer' roots').contains = (members s outer roots).contains := by
    funext id
    rw [Bool.eq_iff_iff, Roster.contains_iff, Roster.contains_iff, hmem]
  have hbefore : ∀ {id}, id ∈ (members s outer roots).keys →
      before s' outer' roots' arms' id = before s outer roots arms id := by
    intro id hid
    rw [before, before, h.dependenciesOf_eq (hmember hid), hget, hcontains]
  have hedges : ∀ a b, Waits (members s' outer' roots') (before s' outer' roots' arms') a b ↔
      Waits (members s outer roots) (before s outer roots arms) a b := by
    intro a b
    rw [Waits, Waits, hmem, hmem]
    refine and_congr_right fun ha => ?_
    rw [hbefore ha]
  have hturns : ∀ a ∈ (members s outer roots).keys, ∀ b ∈ (members s outer roots).keys,
      Before (rankOf s') a b → Before (rankOf s) a b := by
    intro a ha b hb
    obtain ⟨i, hi⟩ := InstructionSet.mem_ids_iff.1 (Schedule.mem_members ha).1
    obtain ⟨j, hj⟩ := InstructionSet.mem_ids_iff.1 (Schedule.mem_members hb).1
    exact (h.turns (hmember ha) (hmember hb) hi hj).1
  have hmet : ∀ m, m ∈ metOuter s' outer' roots' (members s' outer' roots') ↔
      m ∈ metOuter s outer roots (members s outer roots) := by
    intro m
    rw [mem_metOuter, mem_metOuter, hroots, houter]
    refine and_congr_left fun _ => or_congr_right (exists_congr fun id => ?_)
    rw [hmem]
    refine and_congr_right fun hid => ?_
    rw [h.dependenciesOf_eq (hmember hid)]
  refine assemble_eq_ok.2 ⟨order, order_ok_of_turns hmem hedges hturns horder, ?_, fun m => ?_⟩
  · have hstep : stepOf arms' = stepOf arms := by
      funext id
      rw [stepOf, stepOf, hget]
    rw [hsteps, hstep]
  · simp only [hneeds m, hmet m, hget, hmem]

/-- The branches of a unit have the same arms in both sets, if what can be scheduled in the one set
inside the unit can be in the other. -/
lemma exists_arms (h : Agree s s' ids) (hids : ∀ r ∈ roots, ids r)
    (hroots : ∀ r, r ∈ roots' ↔ r ∈ roots) (houter : ∀ x, x ∈ outer' ↔ x ∈ outer)
    {arms : List (String × Plan × Plan)}
    (harms : (members s outer roots).keys.filterMapM (armPlans s outer roots) = .ok arms)
    (hunit : ∀ id ∈ (members s outer roots).keys, ∀ (arm : NameSet) (plan : Plan),
      (∀ r ∈ arm, ids r) → unit s arm.toList (inner s outer roots) = .ok plan →
        unit s' arm.toList (inner s' outer' roots') = .ok plan) :
    ∃ arms', (members s' outer' roots').keys.filterMapM (armPlans s' outer' roots') = .ok arms' ∧
      ∀ id, (Roster.ofList arms').get? id = (Roster.ofList arms).get? id := by
  have hmem := h.mem_members_iff hids hroots houter
  have hmember : ∀ {id}, id ∈ (members s outer roots).keys → ids id := fun hid =>
    (h.mem_members hids hroots houter hid).1
  have harm : ∀ {id y n}, (Roster.ofList arms).get? id = some (y, n) → ∃ yes no : NameSet,
      armsOf s' id = some (yes, no) ∧ unit s' yes.toList (inner s' outer' roots') = .ok y ∧
        unit s' no.toList (inner s' outer' roots') = .ok n := by
    intro id y n hget
    obtain ⟨hid, yes, no, harm, hy, hn⟩ := (get?_ofList_arms harms id y n).1 hget
    obtain ⟨i, hi, harms?⟩ := (armsOf_eq_some s).1 harm
    have hroot : ∀ r, r ∈ yes ∨ r ∈ no → ids r := fun r hr =>
      h.closed (hmember hid) hi r (mem_references_of_arm harms? hr)
    exact ⟨yes, no, (h.armsOf_eq (hmember hid)).trans harm,
      hunit id hid yes y (fun r hr => hroot r (.inl hr)) hy,
      hunit id hid no n (fun r hr => hroot r (.inr hr)) hn⟩
  obtain ⟨arms', harms'⟩ : ∃ arms',
      (members s' outer' roots').keys.filterMapM (armPlans s' outer' roots') = .ok arms' := by
    apply exists_filterMapM
    intro id hid
    rw [hmem] at hid
    cases ha : armsOf s id with
    | none =>
      refine ⟨none, ?_⟩
      rw [armPlans, h.armsOf_eq (hmember hid), ha]
      rfl
    | some a =>
      obtain ⟨y, n, hget⟩ := exists_get?_ofList_arms harms hid ha
      obtain ⟨yes, no, harm', hy, hn⟩ := harm hget
      exact ⟨_, (armPlans_eq_some s' outer' roots').2 ⟨rfl, yes, no, harm', hy, hn⟩⟩
  refine ⟨arms', harms', fun id => ?_⟩
  ext ⟨y, n⟩
  constructor
  · intro hget'
    obtain ⟨hid, yes, no, harm', hy, hn⟩ := (get?_ofList_arms harms' id y n).1 hget'
    rw [hmem] at hid
    -- the arms that the first set has for the branch are scheduled in the second as well
    have harm₀ : armsOf s id = some (yes, no) := (h.armsOf_eq (hmember hid)).symm.trans harm'
    obtain ⟨y₀, n₀, hget⟩ := exists_get?_ofList_arms harms hid harm₀
    obtain ⟨yes₀, no₀, harm₁, hy₀, hn₀⟩ := harm hget
    obtain ⟨rfl, rfl⟩ := Prod.mk.inj (Option.some.inj (harm'.symm.trans harm₁))
    obtain rfl : y = y₀ := Except.ok.inj (hy.symm.trans hy₀)
    obtain rfl : n = n₀ := Except.ok.inj (hn.symm.trans hn₀)
    exact hget
  · intro hget
    have hid := ((get?_ofList_arms harms id y n).1 hget).1
    exact (get?_ofList_arms harms' id y n).2 ⟨(hmem id).2 hid, harm hget⟩

/-- **Sets that agree have the same units**, for all roots and outer ids that amount to the
same. -/
theorem unit_ok (h : Agree s s' ids) {plan : Plan} (hids : ∀ r ∈ roots, ids r)
    (hroots : ∀ r, r ∈ roots' ↔ r ∈ roots) (houter : ∀ x, x ∈ outer' ↔ x ∈ outer)
    (hplan : unit s roots outer = .ok plan) : unit s' roots' outer' = .ok plan := by
  induction hk : inside s outer using Nat.strongRecOn generalizing roots roots' outer outer' plan
    with
  | _ k ih =>
    have hinner : ∀ x, x ∈ inner s' outer' roots' ↔ x ∈ inner s outer roots := by
      intro x
      rw [mem_inner, mem_inner, houter, h.mem_members_iff hids hroots houter]
    rw [unit_eq] at hplan ⊢
    obtain ⟨arms, harms, hplan⟩ := bind_eq_ok.1 hplan
    -- a unit with a branch leaves fewer ids to its arms
    have hunit : ∀ id ∈ (members s outer roots).keys, ∀ (arm : NameSet) (plan : Plan),
        (∀ r ∈ arm, ids r) → unit s arm.toList (inner s outer roots) = .ok plan →
          unit s' arm.toList (inner s' outer' roots') = .ok plan := by
      intro id hid arm plan harm hplan
      have hlt : inside s (inner s outer roots) < k := hk ▸ inside_insertMany_lt hid
      exact ih _ hlt harm (fun _ => Iff.rfl) hinner hplan rfl
    obtain ⟨arms', harms', hget⟩ := h.exists_arms hids hroots houter harms hunit
    exact bind_eq_ok.2 ⟨arms', harms', h.assemble_ok hids hroots houter hget hplan⟩

lemma ofRoots_ok (h : Agree s s' ids) (hids : ∀ r ∈ roots, ids r)
    (hroots : ∀ r, r ∈ roots' ↔ r ∈ roots) {steps : List Step}
    (hsteps : ofRoots s roots = .ok steps) : ofRoots s' roots' = .ok steps := by
  obtain ⟨plan, hplan, hsteps⟩ := bind_eq_ok.1 hsteps
  exact bind_eq_ok.2 ⟨plan, h.unit_ok hids hroots (fun _ => Iff.rfl) hplan, hsteps⟩

end

end Agree

/-! ### The same part -/

section Part

variable {s s' : InstructionSet} {roots roots' : List String}

lemma reachable_of_part_eq (hpart : s'.part roots' = s.part roots) {id : String}
    (h : Reachable s roots id) : Reachable s' roots' id := by
  obtain ⟨i, hi, rfl⟩ := InstructionSet.exists_mem_part_of_reachable h
  rw [← hpart] at hi
  exact (InstructionSet.mem_part.1 hi).2

lemma get?_eq_none_of_part_eq (hpart : s'.part roots' = s.part roots) {r : String}
    (hnone : s.get? r = none) (hreach : ∀ j, s'.get? r = some j → Reachable s' roots' r) :
    s'.get? r = none := by
  rw [Option.eq_none_iff_forall_ne_some]
  intro j hj
  obtain ⟨j', hj'⟩ := (reachable_of_part_eq hpart.symm (hreach j hj)).exists_get?
  simp [hnone] at hj'

lemma agree_of_part_eq (hpart : s'.part roots' = s.part roots) :
    Agree s s' fun id => Reachable s roots id ∨ s.get? id = none ∧ s'.get? id = none := by
  have hl : (s.part roots).Sublist s.toList := List.filter_sublist
  have hl' : (s.part roots).Sublist s'.toList := hpart ▸ List.filter_sublist
  refine .of_sublist hl hl' (fun hid => ?_) ?_
  · exact hid.imp_left InstructionSet.exists_mem_part_of_reachable
  · rintro id i (hid | ⟨hnone, -⟩) hi r hr
    · cases hr' : s.get? r with
      | some j => exact .inl (.step hid hi hr rfl hr')
      | none =>
        obtain ⟨i', hi', rfl⟩ := InstructionSet.exists_mem_part_of_reachable hid
        obtain rfl : i' = i :=
          Option.some.inj ((InstructionSet.get?_of_mem_toList (hl.subset hi')).symm.trans hi)
        have hi' := InstructionSet.get?_of_mem_toList (hl'.subset hi')
        exact .inr ⟨rfl, get?_eq_none_of_part_eq hpart hr' fun j hj =>
          .step (reachable_of_part_eq hpart hid) hi' hr rfl hj⟩
    · simp [hnone] at hi

lemma root_of_part_eq (hpart : s'.part roots' = s.part roots) {r : String} (hr : r ∈ roots)
    (hr' : r ∈ roots') : Reachable s roots r ∨ s.get? r = none ∧ s'.get? r = none := by
  cases hs : s.get? r with
  | some i => exact .inl (.root hr rfl hs)
  | none => exact .inr ⟨rfl, get?_eq_none_of_part_eq hpart hs fun j hj => .root hr' rfl hj⟩

lemma ofRoots_ok_of_part_eq (hroots : ∀ r, r ∈ roots' ↔ r ∈ roots)
    (hpart : s'.part roots' = s.part roots) {steps : List Step}
    (hsteps : ofRoots s roots = .ok steps) : ofRoots s' roots' = .ok steps :=
  (agree_of_part_eq hpart).ofRoots_ok
    (fun r hr => root_of_part_eq hpart hr ((hroots r).2 hr)) hroots hsteps

end Part

/-! ### Accepted roots -/

/-- What a state is accepted for: its roots and all that can be referred to from them are
registered, and no circle can be entered. -/
structure Admissible (s : InstructionSet) (roots : List String) : Prop where
  root : ∀ r ∈ roots, r ∈ s.ids
  reference : ∀ id, Reachable s roots id → ∀ r, s.LeadsTo id r → r ∈ s.ids
  acyclic : ∀ id, Reachable s roots id → ¬TransGen s.LeadsTo id id

lemma admissible_of_accepted {p : Program} (hp : p.Accepted) {name : String} {st : State}
    (hst : p.state? name = some st) : Admissible p.instructions st.roots := by
  have href : ∀ id, Reachable p.instructions st.roots id → ∀ r, p.instructions.LeadsTo id r →
      Reachable p.instructions st.roots r :=
    fun _ hid _ hr => Program.reachable_of_leadsTo hp.references hid hr
  refine ⟨fun r hr => InstructionSet.mem_ids_iff.2 (hp.roots hst r hr),
    fun id hid r hr => InstructionSet.mem_ids_iff.2 (href id hid r hr).exists_get?, ?_⟩
  obtain ⟨height, hheight⟩ := hp.height hst
  intro id hid hcircle
  have hdown : ∀ {x}, TransGen p.instructions.LeadsTo id x →
      Reachable p.instructions st.roots x ∧ height x < height id := by
    intro x hx
    have hlower : ∀ {a b}, Reachable p.instructions st.roots a → p.instructions.LeadsTo a b →
        height b < height a := fun ha hab => by
      obtain ⟨i, hi, hr⟩ := hab
      exact hheight _ ha i hi _ (Instruction.mem_references.2 hr)
    induction hx with
    | single hab => exact ⟨href _ hid _ hab, hlower hid hab⟩
    | tail _ hbc ih => exact ⟨href _ ih.1 _ hbc, (hlower ih.1 hbc).trans ih.2⟩
  exact Nat.lt_irrefl _ (hdown hcircle).2

namespace Admissible

variable {s : InstructionSet} {roots : List String}

lemma reachable (h : Admissible s roots) {id r : String} (hid : Reachable s roots id)
    (hr : s.LeadsTo id r) : Reachable s roots r := by
  obtain ⟨j, hj⟩ := InstructionSet.mem_ids_iff.1 (h.reference id hid r hr)
  obtain ⟨i, hi, hr⟩ := hr
  exact .step hid hi (Instruction.mem_references.2 hr) rfl hj

lemma reachable_root (h : Admissible s roots) {r : String} (hr : r ∈ roots) :
    Reachable s roots r := by
  obtain ⟨i, hi⟩ := InstructionSet.mem_ids_iff.1 (h.root r hr)
  exact .root hr rfl hi

lemma exists_ofRoots (h : Admissible s roots) : ∃ steps, ofRoots s roots = .ok steps := by
  let refs (id : String) : List String := ((s.get? id).map Instruction.references).getD []
  have hrefs : ∀ {id i}, s.get? id = some i → refs id = i.references := fun hi => by
    simp [refs, hi]
  have hleads : ∀ a b, Waits (Graph.reachable s roots) refs a b → s.LeadsTo a b := by
    rintro a b ⟨ha, hb, -⟩
    obtain ⟨i, hi⟩ := ((mem_reachable_iff s roots a).1 ha).exists_get?
    rw [hrefs hi] at hb
    exact ⟨i, hi, Instruction.mem_references.1 hb⟩
  have hdescends : Descends s (depth (Graph.reachable s roots) refs) (Reachable s roots) := by
    intro id hid i hi r hr
    have hr' := h.reachable hid ⟨i, hi, Instruction.mem_references.1 hr⟩
    have hwaits : Waits (Graph.reachable s roots) refs id r :=
      ⟨(mem_reachable_iff _ _ _).2 hid, by rwa [hrefs hi], (mem_reachable_iff _ _ _).2 hr'⟩
    exact ⟨hr', depth_lt hwaits fun hcircle => h.acyclic r hr' (TransGen.mono hleads _ _ hcircle)⟩
  obtain ⟨plan, hplan, -⟩ :=
    exists_unit_of_descends hdescends ∅ roots fun r hr => h.reachable_root hr
  exact ⟨plan.steps, bind_eq_ok.2 ⟨plan, hplan, rfl⟩⟩

lemma ofRoots_ok_of_sublist (h : Admissible s roots) {s' : InstructionSet} {roots' : List String}
    (hroots : ∀ r, r ∈ roots' ↔ r ∈ roots) (hmore : s.toList.Sublist s'.toList)
    {steps : List Step} (hsteps : ofRoots s roots = .ok steps) : ofRoots s' roots' = .ok steps := by
  have hagree : Agree s s' (Reachable s roots) := by
    refine .of_sublist (List.Sublist.refl _) hmore (fun hid => ?_) fun hid hi r hr => ?_
    · obtain ⟨i, hi, rfl⟩ := InstructionSet.exists_mem_part_of_reachable hid
      exact .inl ⟨i, (InstructionSet.mem_part.1 hi).1, rfl⟩
    · exact h.reachable hid ⟨_, hi, Instruction.mem_references.1 hr⟩
  exact hagree.ofRoots_ok (fun r hr => h.reachable_root hr) hroots hsteps

end Admissible

/-- **A schedule depends only on the relevant part of the program.** Roots that are accepted have a
schedule, and it is the schedule of all roots with the same elements in every instruction set that
has the same part, in the same relative order; so it is in every set that has further instructions
in between, and in a union with another set on either side. -/
theorem schedule_depends_on_part {s : InstructionSet} {roots : List String}
    (h : Admissible s roots) :
    ∃ steps, ofRoots s roots = .ok steps ∧
      ∀ roots', (∀ r, r ∈ roots' ↔ r ∈ roots) →
        (∀ s' : InstructionSet, s'.part roots' = s.part roots → ofRoots s' roots' = .ok steps) ∧
        (∀ s' : InstructionSet, s.toList.Sublist s'.toList → ofRoots s' roots' = .ok steps) ∧
        ∀ t u : InstructionSet, s.union t = .ok u ∨ t.union s = .ok u →
          ofRoots u roots' = .ok steps := by
  obtain ⟨steps, hsteps⟩ := h.exists_ofRoots
  refine ⟨steps, hsteps, fun roots' hroots => ⟨fun s' hpart => ?_, fun s' hmore => ?_, ?_⟩⟩
  · exact ofRoots_ok_of_part_eq hroots hpart hsteps
  · exact h.ofRoots_ok_of_sublist hroots hmore hsteps
  · rintro t u (hu | hu)
    · have hmore : s.toList.Sublist u.toList := by
        rw [InstructionSet.toList_union hu]
        exact List.sublist_append_left _ _
      exact h.ofRoots_ok_of_sublist hroots hmore hsteps
    · have hmore : s.toList.Sublist u.toList := by
        rw [InstructionSet.toList_union hu]
        exact List.sublist_append_right _ _
      exact h.ofRoots_ok_of_sublist hroots hmore hsteps

/-- Nested branches, behind the instructions of another set, with their roots turned around and one
of them repeated. -/
theorem schedule_depends_on_part_nested : ∃ u steps,
    Admissible nestedBranches ["last", "outer"] ∧ twinBranches.union nestedBranches = .ok u ∧
    ofRoots nestedBranches ["last", "outer"] = .ok steps ∧
    Step.idsOf steps = ["shared", "deep", "inner", "outer", "last"] ∧
    ofRoots u ["outer", "last", "outer"] = .ok steps := by
  have hsome : ((Program.create nestedBranches [⟨"s", ["last", "outer"], "s"⟩] "s").toOption.bind
      fun p => p.state? "s").isSome = true := by decide +kernel
  obtain ⟨st, hst⟩ := Option.isSome_iff_exists.1 hsome
  obtain ⟨p, hp, hst⟩ := Option.bind_eq_some_iff.1 hst
  rw [toOption_eq_some] at hp
  have hadmissible := admissible_of_accepted (Program.accepted_of_create hp) hst
  obtain rfl := List.mem_singleton.1 ((Program.state?_eq_some_iff hp).1 hst).1
  rw [Program.instructions_of_create hp] at hadmissible
  have hunion : (twinBranches.union nestedBranches).toOption.isSome = true := by decide +kernel
  obtain ⟨u, hu⟩ := Option.isSome_iff_exists.1 hunion
  rw [toOption_eq_some] at hu
  have hids : (ofRoots nestedBranches ["last", "outer"]).toOption.map Step.idsOf =
      some ["shared", "deep", "inner", "outer", "last"] := by decide +kernel
  obtain ⟨steps, hsteps, hids⟩ := Option.map_eq_some_iff.1 hids
  rw [toOption_eq_some] at hsteps
  obtain ⟨steps', hsteps', hsame⟩ := schedule_depends_on_part hadmissible
  obtain rfl : steps = steps' := Except.ok.inj (hsteps.symm.trans hsteps')
  have hroots : ∀ r, r ∈ ["outer", "last", "outer"] ↔ r ∈ ["last", "outer"] := by
    intro r
    simp only [List.mem_cons, List.not_mem_nil, or_false]
    tauto
  exact ⟨u, steps, hadmissible, hu, hsteps, hids, (hsame _ hroots).2.2 _ u (.inr hu)⟩

end Schedule

end TimeMarch
