import TimeMarch.Proofs.DependencyOrder
import TimeMarch.Proofs.Reachability
import TimeMarch.Proofs.Success
import TimeMarch.Schedule

/-!
# Scheduled Units

What it takes to schedule a unit, said once: the arms of its branches are scheduled with the members
of the unit as further outer ids, and the members are put in an order in which a branch also stands
behind the members that its arms rely on. All that is proved of schedules later goes by induction
over units.
-/

namespace TimeMarch

namespace Schedule

open TimeMarch.Graph

section

variable (s : InstructionSet)

def dependenciesOf (id : String) : List String :=
  ((s.get? id).map fun i => i.dependsOn.toList).getD []

def armsOf (id : String) : Option (NameSet × NameSet) := (s.get? id).bind Instruction.arms?

lemma mem_dependenciesOf {id d : String} :
    d ∈ dependenciesOf s id ↔ ∃ i, s.get? id = some i ∧ d ∈ i.dependsOn := by
  unfold dependenciesOf
  cases s.get? id <;> simp

lemma armsOf_eq_some {id : String} {arms : NameSet × NameSet} :
    armsOf s id = some arms ↔ ∃ i, s.get? id = some i ∧ i.arms? = some arms :=
  Option.bind_eq_some_iff

variable (outer : Std.TreeSet String) (roots : List String)

lemma mem_members_iff {id : String} :
    id ∈ (members s outer roots).keys ↔
      Reaches s (fun i => i.dependsOn.toList) outer.contains roots id :=
  mem_walk_iff s _ _ roots id

/-- The outer ids of the arms in a unit: those of the unit and its members. -/
def inner : Std.TreeSet String := outer.insertMany (members s outer roots).keys

lemma contains_eq_false_iff {id : String} : outer.contains id = false ↔ id ∉ outer := by
  rw [← Bool.not_eq_true, Std.TreeSet.contains_iff_mem]

lemma mem_inner {id : String} :
    id ∈ inner s outer roots ↔ id ∈ outer ∨ id ∈ (members s outer roots).keys := by
  simp [inner, Std.TreeSet.mem_insertMany_list]

lemma notMem_outer_of_mem_members {id : String} (h : id ∈ (members s outer roots).keys) :
    id ∉ outer :=
  (contains_eq_false_iff outer).1 (mem_members h).2

lemma mem_members_of_dependency {id d : String} {j : Instruction}
    (hid : id ∈ (members s outer roots).keys) (hd : d ∈ dependenciesOf s id) (hout : d ∉ outer)
    (hj : s.get? d = some j) : d ∈ (members s outer roots).keys := by
  rw [mem_members_iff] at hid ⊢
  obtain ⟨i, hi, hd⟩ := (mem_dependenciesOf s).1 hd
  exact .step hid hi hd ((contains_eq_false_iff outer).2 hout) hj

lemma mem_members_of_root {r : String} {j : Instruction} (hr : r ∈ roots) (hout : r ∉ outer)
    (hj : s.get? r = some j) : r ∈ (members s outer roots).keys := by
  rw [mem_members_iff]
  exact .root hr ((contains_eq_false_iff outer).2 hout) hj

lemma mem_metOuter {n : String} :
    n ∈ metOuter s outer roots (members s outer roots) ↔
      (n ∈ roots ∨ ∃ id ∈ (members s outer roots).keys, n ∈ dependenciesOf s id) ∧ n ∈ outer := by
  unfold metOuter dependenciesOf
  rw [List.mem_filter, List.mem_append, List.mem_flatMap, Std.TreeSet.contains_iff_mem]

/-! ### The plans of the arms -/

def armPlans (id : String) : Except (List String) (Option (String × Plan × Plan)) :=
  match armsOf s id with
  | none => return none
  | some (yes, no) => do
    let yes ← unit s yes.toList (inner s outer roots)
    let no ← unit s no.toList (inner s outer roots)
    return some (id, yes, no)

lemma unit_eq : unit s roots outer =
    ((members s outer roots).keys.filterMapM (armPlans s outer roots) >>= fun arms =>
      assemble s (members s outer roots) (metOuter s outer roots (members s outer roots))
        (Roster.ofList arms)) := by
  rw [unit]
  congr 1
  rw [List.filterMapM_subtype (g := armPlans s outer roots), List.unattach_attach]
  intro id hid
  rfl

lemma armPlans_eq_some {id k : String} {y n : Plan} :
    armPlans s outer roots id = .ok (some (k, y, n)) ↔ k = id ∧ ∃ yes no : NameSet,
      armsOf s id = some (yes, no) ∧ unit s yes.toList (inner s outer roots) = .ok y ∧
        unit s no.toList (inner s outer roots) = .ok n := by
  unfold armPlans
  cases armsOf s id with
  | none => simp [pure, Except.pure]
  | some arms =>
    obtain ⟨yes, no⟩ := arms
    simp only [bind_eq_ok, pure, Except.pure, Except.ok.injEq, Option.some.injEq, Prod.mk.injEq]
    constructor
    · rintro ⟨y', hy, n', hn, rfl, rfl, rfl⟩
      exact ⟨rfl, yes, no, ⟨rfl, rfl⟩, hy, hn⟩
    · rintro ⟨rfl, yes', no', ⟨rfl, rfl⟩, hy, hn⟩
      exact ⟨y, hy, n, hn, rfl, rfl, rfl⟩

/-- The order in which a unit looks at a branch: its dependencies, and the members that its arms
rely on. -/
def before (arms : Roster (Plan × Plan)) (id : String) : List String :=
  dependenciesOf s id ++ (((arms.get? id).map armNeeds).getD []).filter fun n =>
    (members s outer roots).contains n && n != id

def rankOf (id : String) : ℕ := (s.rank? id).getD s.size

def stepOf (arms : Roster (Plan × Plan)) (id : String) : Step :=
  match arms.get? id with
  | some (yes, no) => .branch id yes.steps no.steps
  | none => .run id

/-- A unit is scheduled: its arms are, its members are in order, and it relies on the outer ids it
meets and on those that its arms pass on. -/
structure Assembled (arms : Roster (Plan × Plan)) (order : List String) (plan : Plan) : Prop where
  arms_iff : ∀ id y n, arms.get? id = some (y, n) ↔ id ∈ (members s outer roots).keys ∧
    ∃ yes no : NameSet, armsOf s id = some (yes, no) ∧
      unit s yes.toList (inner s outer roots) = .ok y ∧
      unit s no.toList (inner s outer roots) = .ok n
  arms_total : ∀ id ∈ (members s outer roots).keys, ∀ a, armsOf s id = some a →
    ∃ y n, arms.get? id = some (y, n)
  isOrder : IsOrder (members s outer roots) (before s outer roots arms) order
  steps : plan.steps = order.map (stepOf arms)
  needs : ∀ m, m ∈ plan.needs ↔ m ∈ metOuter s outer roots (members s outer roots) ∨
    ∃ id a, arms.get? id = some a ∧ m ∈ armNeeds a ∧ m ∉ (members s outer roots).keys

variable {s outer roots}

lemma get?_ofList_arms {arms : List (String × Plan × Plan)}
    (h : (members s outer roots).keys.filterMapM (armPlans s outer roots) = .ok arms)
    (id : String) (y n : Plan) :
    (Roster.ofList arms).get? id = some (y, n) ↔ id ∈ (members s outer roots).keys ∧
      ∃ yes no : NameSet, armsOf s id = some (yes, no) ∧
        unit s yes.toList (inner s outer roots) = .ok y ∧
        unit s no.toList (inner s outer roots) = .ok n := by
  have hkey : ∀ a (b : String × Plan × Plan), armPlans s outer roots a = .ok (some b) → b.1 = a :=
    fun a b hab => ((armPlans_eq_some s outer roots).1 hab).1
  have hnodup : (arms.map Prod.fst).Nodup :=
    (sublist_of_filterMapM hkey h).nodup (members s outer roots).nodup_keys
  rw [Roster.get?_ofList hnodup, mem_of_filterMapM h]
  constructor
  · rintro ⟨id', hid', h'⟩
    obtain ⟨rfl, hrest⟩ := (armPlans_eq_some s outer roots).1 h'
    exact ⟨hid', hrest⟩
  · rintro ⟨hid, hrest⟩
    exact ⟨id, hid, (armPlans_eq_some s outer roots).2 ⟨rfl, hrest⟩⟩

lemma exists_get?_ofList_arms {arms : List (String × Plan × Plan)}
    (h : (members s outer roots).keys.filterMapM (armPlans s outer roots) = .ok arms) {id : String}
    (hid : id ∈ (members s outer roots).keys) {a : NameSet × NameSet} (ha : armsOf s id = some a) :
    ∃ y n, (Roster.ofList arms).get? id = some (y, n) := by
  obtain ⟨o, ho⟩ := exists_of_filterMapM h hid
  cases o with
  | none =>
    unfold armPlans at ho
    rw [ha] at ho
    obtain ⟨y, hy, ho⟩ := bind_eq_ok.1 ho
    obtain ⟨n, hn, ho⟩ := bind_eq_ok.1 ho
    cases ho
  | some b =>
    obtain ⟨k, y, n⟩ := b
    exact ⟨y, n, (get?_ofList_arms h id y n).2 ⟨hid, ((armPlans_eq_some s outer roots).1 ho).2⟩⟩

lemma assemble_eq_ok {met : List String} {arms : Roster (Plan × Plan)} {plan : Plan} :
    assemble s (members s outer roots) met arms = .ok plan ↔ ∃ order,
      Graph.order (members s outer roots) (before s outer roots arms) (rankOf s) = .ok order ∧
      plan.steps = order.map (stepOf arms) ∧
      ∀ m, m ∈ plan.needs ↔ m ∈ met ∨
        ∃ id a, arms.get? id = some a ∧ m ∈ armNeeds a ∧ m ∉ (members s outer roots).keys := by
  have hneeds : ∀ m, m ∈ NameSet.ofList (met ++ arms.values.flatMap fun a => (armNeeds a).filter
      fun n => !(members s outer roots).contains n) ↔ m ∈ met ∨
        ∃ id a, arms.get? id = some a ∧ m ∈ armNeeds a ∧ m ∉ (members s outer roots).keys := by
    intro m
    simp only [NameSet.mem_ofList, List.mem_append, List.mem_flatMap, List.mem_filter,
      Roster.mem_values_iff, Bool.not_eq_true', ← Bool.not_eq_true, Roster.contains_iff]
    constructor
    · rintro (hm | ⟨a, ⟨id, ha⟩, hm, hnot⟩)
      · exact .inl hm
      · exact .inr ⟨id, a, ha, hm, hnot⟩
    · rintro (hm | ⟨id, a, ha, hm, hnot⟩)
      · exact .inl hm
      · exact .inr ⟨a, ⟨id, ha⟩, hm, hnot⟩
  unfold assemble
  rw [bind_eq_ok]
  refine exists_congr fun order => and_congr_right fun _ => ?_
  constructor
  · intro h
    obtain rfl := Except.ok.inj h
    exact ⟨rfl, hneeds⟩
  · rintro ⟨hsteps, hplan⟩
    obtain ⟨steps, needs⟩ := plan
    obtain rfl := NameSet.ext fun m => (hneeds m).trans (hplan m).symm
    subst hsteps
    rfl

/-- **What it takes to schedule a unit.** -/
theorem assembled_of_unit {plan : Plan} (h : unit s roots outer = .ok plan) :
    ∃ arms order, Assembled s outer roots arms order plan := by
  rw [unit_eq] at h
  obtain ⟨arms, harms, h⟩ := bind_eq_ok.1 h
  obtain ⟨order, horder, hsteps, hneeds⟩ := assemble_eq_ok.1 h
  exact ⟨Roster.ofList arms, order, get?_ofList_arms harms,
    fun id hid a ha => exists_get?_ofList_arms harms hid ha, isOrder_of_order horder, hsteps,
    hneeds⟩

theorem exists_unit (height : String → ℕ)
    (harms : ∀ id ∈ (members s outer roots).keys, ∀ yes no : NameSet, armsOf s id = some (yes, no) →
      ∃ y n, unit s yes.toList (inner s outer roots) = .ok y ∧
        unit s no.toList (inner s outer roots) = .ok n ∧
        ∀ m, m ∈ y.needs ∨ m ∈ n.needs → height m < height id)
    (hdeps : ∀ id ∈ (members s outer roots).keys, ∀ d ∈ dependenciesOf s id,
      height d < height id) :
    ∃ plan, unit s roots outer = .ok plan := by
  obtain ⟨arms, hok⟩ : ∃ arms,
      (members s outer roots).keys.filterMapM (armPlans s outer roots) = .ok arms := by
    apply exists_filterMapM
    intro id hid
    cases ha : armsOf s id with
    | none => exact ⟨none, by simp [armPlans, ha, pure, Except.pure]⟩
    | some a =>
      obtain ⟨yes, no⟩ := a
      obtain ⟨y, n, hy, hn, -⟩ := harms id hid yes no ha
      exact ⟨_, (armPlans_eq_some s outer roots).2 ⟨rfl, yes, no, ha, hy, hn⟩⟩
  have hdown : ∀ id ∈ (members s outer roots).keys,
      ∀ d ∈ before s outer roots (Roster.ofList arms) id, d ∈ (members s outer roots).keys →
        height d < height id := by
    intro id hid d hd _
    rcases List.mem_append.1 hd with hd | hd
    · exact hdeps id hid d hd
    · have hd := (List.mem_filter.1 hd).1
      cases ha : (Roster.ofList arms).get? id with
      | none => simp [ha] at hd
      | some a =>
        obtain ⟨y, n⟩ := a
        obtain ⟨-, yes, no, harm, hy, hn⟩ := (get?_ofList_arms hok id y n).1 ha
        obtain ⟨y', n', hy', hn', hneeds⟩ := harms id hid yes no harm
        obtain rfl : y = y' := Except.ok.inj (hy.symm.trans hy')
        obtain rfl : n = n' := Except.ok.inj (hn.symm.trans hn')
        rw [ha, Option.map_some, Option.getD_some, armNeeds, List.mem_append] at hd
        exact hneeds d hd
  obtain ⟨order, horder⟩ := exists_order (rankOf s) height hdown
  obtain ⟨plan, hplan⟩ : ∃ plan, assemble s (members s outer roots)
      (metOuter s outer roots (members s outer roots)) (Roster.ofList arms) = .ok plan := by
    unfold assemble
    exact ⟨_, bind_eq_ok.2 ⟨order, horder, rfl⟩⟩
  rw [unit_eq]
  exact ⟨plan, bind_eq_ok.2 ⟨arms, hok, hplan⟩⟩

/-- **Induction over units**: what holds of a unit if it holds of the arms of its branches. -/
theorem unit_induction {P : List String → Std.TreeSet String → Plan → Prop}
    (step : ∀ {roots outer arms order plan}, Assembled s outer roots arms order plan →
      (∀ {id y n}, arms.get? id = some (y, n) → ∃ yes no : NameSet, armsOf s id = some (yes, no) ∧
        P yes.toList (inner s outer roots) y ∧ P no.toList (inner s outer roots) n) →
      P roots outer plan)
    {plan : Plan} (h : unit s roots outer = .ok plan) : P roots outer plan := by
  -- the arms have fewer ids inside
  induction hk : inside s outer using Nat.strongRecOn generalizing roots outer plan with
  | _ k ih =>
    obtain ⟨arms, order, ha⟩ := assembled_of_unit h
    refine step ha fun {id y n} hget => ?_
    obtain ⟨hid, yes, no, harm, hy, hn⟩ := (ha.arms_iff id y n).1 hget
    have hlt : inside s (inner s outer roots) < k := hk ▸ inside_insertMany_lt hid
    exact ⟨yes, no, harm, ih _ hlt hy rfl, ih _ hlt hn rfl⟩

end

/-! ### Steps and their instructions -/

end Schedule

mutual

/-- All ids in a step, those in the arms of a branch before the branch. -/
def Step.ids : Step → List String
  | .run id => [id]
  | .branch id yes no => Step.idsOf yes ++ Step.idsOf no ++ [id]

def Step.idsOf : List Step → List String
  | [] => []
  | step :: rest => step.ids ++ Step.idsOf rest

end

namespace Schedule

/-- Branches stand where the instructions are branches, also within the arms. -/
inductive Shaped (s : InstructionSet) : List Step → Prop where
  | nil : Shaped s []
  | run {id : String} {i : Instruction} {rest : List Step} (hi : s.get? id = some i)
      (harms : i.arms? = none) (hrest : Shaped s rest) : Shaped s (.run id :: rest)
  | branch {id : String} {i : Instruction} {arms : NameSet × NameSet} {yes no rest : List Step}
      (hi : s.get? id = some i) (harms : i.arms? = some arms) (hyes : Shaped s yes)
      (hno : Shaped s no) (hrest : Shaped s rest) : Shaped s (.branch id yes no :: rest)

lemma Shaped.cons_stepOf {s : InstructionSet} {arms : Roster (Plan × Plan)} {id : String}
    {i : Instruction} {rest : List Step} (hi : s.get? id = some i)
    (hnone : arms.get? id = none → i.arms? = none)
    (hsome : ∀ y n, arms.get? id = some (y, n) →
      (∃ a, i.arms? = some a) ∧ Shaped s y.steps ∧ Shaped s n.steps)
    (hrest : Shaped s rest) : Shaped s (stepOf arms id :: rest) := by
  unfold stepOf
  split
  · rename_i y n hget
    obtain ⟨⟨a, ha⟩, hy, hn⟩ := hsome y n hget
    exact .branch hi ha hy hn hrest
  · exact .run hi (hnone ‹_›) hrest

theorem shaped_of_unit {s : InstructionSet} {roots : List String} {outer : Std.TreeSet String}
    {plan : Plan} (h : unit s roots outer = .ok plan) : Shaped s plan.steps := by
  refine unit_induction (P := fun _ _ plan => Shaped s plan.steps) ?_ h
  intro roots outer arms order plan h ih
  have hall : ∀ l : List String, (∀ id ∈ l, id ∈ (members s outer roots).keys) →
      Shaped s (l.map (stepOf arms)) := by
    intro l
    induction l with
    | nil => exact fun _ => .nil
    | cons id l ihl =>
      intro hl
      rw [List.forall_mem_cons] at hl
      obtain ⟨i, hi⟩ := (Roster.mem_keys_iff _ _).1 (mem_members hl.1).1
      refine .cons_stepOf hi (fun hnone => ?_) (fun y n hget => ?_) (ihl hl.2)
      · rw [Option.eq_none_iff_forall_ne_some]
        intro a ha
        obtain ⟨y, n, hget⟩ := h.arms_total id hl.1 a ((armsOf_eq_some s).2 ⟨i, hi, ha⟩)
        exact absurd (hnone.symm.trans hget) (by simp)
      · obtain ⟨yes, no, harm, hy, hn⟩ := ih hget
        obtain ⟨j, hj, ha⟩ := (armsOf_eq_some s).1 harm
        obtain rfl := Option.some.inj (hi.symm.trans hj)
        exact ⟨⟨_, ha⟩, hy, hn⟩
  rw [h.steps]
  exact hall order fun id hid => h.isOrder.perm.mem_iff.1 hid

end Schedule

end TimeMarch
