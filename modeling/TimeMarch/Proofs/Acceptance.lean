import TimeMarch.Program
import TimeMarch.Proofs.DependencyOrder
import TimeMarch.Proofs.Reachability
import TimeMarch.Proofs.Success

/-!
# What Acceptance Promises

A program that is accepted refers to nothing that does not exist, and what a state reaches can be
given heights such that every reference goes downwards.
-/

namespace TimeMarch.Program

open TimeMarch.Graph

/-! ### The single checks -/

section Checks

variable (p : Program)

lemma requireInstruction_eq_ok {referrer : Referrer} {id : String} :
    p.requireInstruction referrer id = .ok () ↔ ∃ i, p.instructions.get? id = some i := by
  have hiff : p.instructions.contains id = true ↔ ∃ i, p.instructions.get? id = some i :=
    (Roster.contains_iff _ _).trans (Roster.mem_keys_iff _ _)
  unfold requireInstruction
  rw [← hiff]
  split <;> simp_all

lemma requireState_eq_ok {referrer : Referrer} {name : String} :
    p.requireState referrer name = .ok () ↔ p.states.contains name = true := by
  unfold requireState
  split <;> simp_all

lemma checkInstruction_eq_ok {i : Instruction} :
    p.checkInstruction i = .ok () ↔
      (∀ r ∈ i.references, ∃ j, p.instructions.get? r = some j) ∧
      ∀ next, i.action = .transition next → p.states.contains next = true := by
  unfold checkInstruction
  rw [bind_eq_ok]
  constructor
  · rintro ⟨_, hrefs, hnext⟩
    refine ⟨fun r hr => (requireInstruction_eq_ok p).1 (forM_eq_ok.1 hrefs r hr), ?_⟩
    intro next haction
    rw [haction] at hnext
    exact (requireState_eq_ok p).1 hnext
  · rintro ⟨hrefs, hnext⟩
    refine ⟨(), forM_eq_ok.2 fun r hr => (requireInstruction_eq_ok p).2 (hrefs r hr), ?_⟩
    split
    · rename_i next haction
      exact (requireState_eq_ok p).2 (hnext next haction)
    · rfl

def referencesOf (id : String) : List String :=
  ((p.instructions.get? id).map Instruction.references).getD []

lemma referencesOf_eq {id : String} {i : Instruction} (hi : p.instructions.get? id = some i) :
    p.referencesOf id = i.references := by
  simp [referencesOf, hi]

lemma checkOrder_eq_ok {s : State} :
    p.checkOrder s = .ok () ↔ ∃ l, order (reachable p.instructions s.roots) p.referencesOf
      (fun id => (p.instructions.rank? id).getD p.instructions.size) = .ok l := by
  have hreferences : p.referencesOf = fun id =>
      ((p.instructions.get? id).map Instruction.references).getD [] := rfl
  rw [checkOrder, hreferences]
  split <;> simp_all

lemma checkState_eq_ok {s : State} :
    p.checkState s = .ok () ↔ p.states.contains s.next = true ∧
      (∀ r ∈ s.roots, ∃ i, p.instructions.get? r = some i) ∧ p.checkOrder s = .ok () := by
  unfold checkState
  rw [bind_eq_ok]
  constructor
  · rintro ⟨_, hnext, h⟩
    obtain ⟨_, hroots, horder⟩ := bind_eq_ok.1 h
    exact ⟨(requireState_eq_ok p).1 hnext,
      fun r hr => (requireInstruction_eq_ok p).1 (forM_eq_ok.1 hroots r hr), horder⟩
  · rintro ⟨hnext, hroots, horder⟩
    exact ⟨(), (requireState_eq_ok p).2 hnext, bind_eq_ok.2 ⟨(),
      forM_eq_ok.2 fun r hr => (requireInstruction_eq_ok p).2 (hroots r hr), horder⟩⟩

lemma check_eq_ok :
    p.check = .ok () ↔ (∀ i ∈ p.instructions.toList, p.checkInstruction i = .ok ()) ∧
      p.states.contains p.initial = true ∧ ∀ s ∈ p.states.values, p.checkState s = .ok () := by
  unfold check
  rw [bind_eq_ok]
  constructor
  · rintro ⟨_, hinstructions, h⟩
    obtain ⟨_, hinitial, hstates⟩ := bind_eq_ok.1 h
    exact ⟨forM_eq_ok.1 hinstructions, (requireState_eq_ok p).1 hinitial, forM_eq_ok.1 hstates⟩
  · rintro ⟨hinstructions, hinitial, hstates⟩
    exact ⟨(), forM_eq_ok.2 hinstructions, bind_eq_ok.2 ⟨(), (requireState_eq_ok p).2 hinitial,
      forM_eq_ok.2 hstates⟩⟩

end Checks

/-! ### States under their names -/

lemma register_eq_ok {states states' : Roster State} {s : State}
    (h : register states s = .ok states') :
    s.name ∉ states.keys ∧ states'.toList = states.toList ++ [(s.name, s)] := by
  unfold register at h
  split at h
  · rename_i hplace
    obtain rfl := Except.ok.inj h
    exact ⟨(Roster.place?_eq_none_iff _ _).1 hplace, Roster.toList_push _ _ _ _⟩
  · cases h

lemma toList_of_register {states : List State} {roster : Roster State}
    (h : states.foldlM register .empty = .ok roster) :
    roster.toList = states.map fun s => (s.name, s) := by
  refine foldlM_induction (P := fun done r => r.toList = done.map fun s : State => (s.name, s))
    ?_ rfl h
  intro done r s r' hr hs
  rw [(register_eq_ok hs).2, hr]
  simp

lemma instructions_of_create {instructions : InstructionSet} {states : List State}
    {initial : String} {p : Program} (h : create instructions states initial = .ok p) :
    p.instructions = instructions := by
  obtain ⟨_, -, h⟩ := bind_eq_ok.1 h
  obtain ⟨_, -, h⟩ := bind_eq_ok.1 h
  obtain rfl := Except.ok.inj h
  rfl

lemma state?_eq_some_iff {instructions : InstructionSet} {states : List State} {initial : String}
    {p : Program} (h : create instructions states initial = .ok p) {name : String} {s : State} :
    p.state? name = some s ↔ s ∈ states ∧ s.name = name := by
  obtain ⟨roster, hroster, h⟩ := bind_eq_ok.1 h
  obtain ⟨_, -, h⟩ := bind_eq_ok.1 h
  obtain rfl := Except.ok.inj h
  rw [state?, Roster.get?_eq_some_iff, toList_of_register hroster, List.mem_map]
  constructor
  · rintro ⟨s', hs', heq⟩
    obtain ⟨rfl, rfl⟩ := Prod.mk.inj heq
    exact ⟨hs', rfl⟩
  · rintro ⟨hs, rfl⟩
    exact ⟨s, hs, rfl⟩

/-! ### Accepted programs -/

/-- What is promised of an accepted program. -/
structure Accepted (p : Program) : Prop where
  references : ∀ {id i}, p.instructions.get? id = some i →
    ∀ r ∈ i.references, ∃ j, p.instructions.get? r = some j
  transition : ∀ {id i next}, p.instructions.get? id = some i → i.action = .transition next →
    p.states.contains next = true
  initial : p.states.contains p.initial = true
  name_eq : ∀ {name s}, p.state? name = some s → s.name = name
  next : ∀ {name s}, p.state? name = some s → p.states.contains s.next = true
  roots : ∀ {name s}, p.state? name = some s → ∀ r ∈ s.roots, ∃ i, p.instructions.get? r = some i
  height : ∀ {name s}, p.state? name = some s → ∃ height : String → ℕ,
    ∀ id, Reachable p.instructions s.roots id → ∀ i, p.instructions.get? id = some i →
      ∀ r ∈ i.references, height r < height id

lemma exists_height {p : Program} {s : State} (h : p.checkOrder s = .ok ())
    (hrefs : ∀ {id i}, p.instructions.get? id = some i →
      ∀ r ∈ i.references, ∃ j, p.instructions.get? r = some j) :
    ∃ height : String → ℕ, ∀ id, Reachable p.instructions s.roots id →
      ∀ i, p.instructions.get? id = some i → ∀ r ∈ i.references, height r < height id := by
  obtain ⟨l, hl⟩ := (checkOrder_eq_ok p).1 h
  have hl := isOrder_of_order hl
  refine ⟨fun id => l.idxOf id, fun id hid i hi r hr => ?_⟩
  obtain ⟨j, hj⟩ := hrefs hi r hr
  have hr' : Reachable p.instructions s.roots r := .step hid hi hr rfl hj
  exact hl.idxOf_lt ((mem_reachable_iff _ _ _).2 hid) (by rwa [referencesOf_eq p hi])
    ((mem_reachable_iff _ _ _).2 hr')

/-- **Acceptance**: what is created satisfies all that is promised. -/
theorem accepted_of_create {instructions : InstructionSet} {states : List State} {initial : String}
    {p : Program} (h : create instructions states initial = .ok p) : p.Accepted := by
  unfold create at h
  obtain ⟨roster, hroster, h⟩ := bind_eq_ok.1 h
  obtain ⟨_, hcheck, h⟩ := bind_eq_ok.1 h
  obtain rfl := Except.ok.inj h
  obtain ⟨hinstructions, hinitial, hstates⟩ := (check_eq_ok _).1 hcheck
  have hrefs : ∀ {id i}, instructions.get? id = some i →
      ∀ r ∈ i.references, ∃ j, instructions.get? r = some j := fun hi =>
    ((checkInstruction_eq_ok _).1 (hinstructions _ (mem_toList_of_get? hi).1)).1
  have hstate : ∀ {name s}, roster.get? name = some s → _ := fun hs =>
    (checkState_eq_ok _).1 (hstates _ ((Roster.mem_values_iff _ _).2 ⟨_, hs⟩))
  refine ⟨hrefs, ?_, hinitial, ?_, fun hs => (hstate hs).1, fun hs => (hstate hs).2.1,
    fun hs => exists_height (hstate hs).2.2 hrefs⟩
  · intro id i next hi haction
    exact ((checkInstruction_eq_ok _).1 (hinstructions _ (mem_toList_of_get? hi).1)).2 next haction
  · intro name s hs
    have hmem := (Roster.get?_eq_some_iff _ _ _).1 hs
    rw [toList_of_register hroster, List.mem_map] at hmem
    obtain ⟨s', -, heq⟩ := hmem
    obtain ⟨rfl, rfl⟩ := Prod.mk.inj heq
    rfl

end TimeMarch.Program
