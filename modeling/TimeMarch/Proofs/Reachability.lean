import Mathlib.Data.List.Nodup
import TimeMarch.Graph.Reach
import TimeMarch.Proofs.Rosters

/-!
# What a Walk Lists

A walk lists exactly the registered ids that references lead to from the roots without entering the
outer ids.
-/

namespace TimeMarch

namespace InstructionSet

variable {s : InstructionSet}

lemma mem_ids_iff {id : String} : id ∈ s.ids ↔ ∃ i, s.get? id = some i :=
  s.roster.mem_keys_iff id

lemma get?_of_mem_toList {i : Instruction} (h : i ∈ s.toList) : s.get? i.id = some i := by
  obtain ⟨e, he, rfl⟩ := List.mem_map.1 h
  rw [s.id_eq e he]
  exact (s.roster.get?_eq_some_iff _ _).2 he

end InstructionSet

namespace Graph

section Walk

variable (s : InstructionSet) (follow : Instruction → List String) (outer : String → Bool)

/-- The registered ids inside that references lead to from the roots. -/
inductive Reaches (roots : List String) : String → Prop where
  | root {id : String} {i : Instruction} (hid : id ∈ roots) (hout : outer id = false)
      (hi : s.get? id = some i) : Reaches roots id
  | step {id id' : String} {i i' : Instruction} (hid : Reaches roots id) (hi : s.get? id = some i)
      (href : id' ∈ follow i) (hout : outer id' = false) (hi' : s.get? id' = some i') :
      Reaches roots id'

def Met (roots : List String) (id : String) : Prop :=
  id ∈ roots ∨ ∃ id₀ i, Reaches s follow outer roots id₀ ∧ s.get? id₀ = some i ∧ id ∈ follow i

variable {s follow outer}

lemma Reaches.exists_get? {roots : List String} {id : String}
    (h : Reaches s follow outer roots id) : ∃ i, s.get? id = some i := by
  cases h <;> exact ⟨_, ‹_›⟩

lemma Met.reaches {roots : List String} {id : String} {i : Instruction}
    (h : Met s follow outer roots id) (hout : outer id = false) (hi : s.get? id = some i) :
    Reaches s follow outer roots id := by
  obtain hroot | ⟨id₀, i₀, hid₀, hi₀, href⟩ := h
  · exact .root hroot hout hi
  · exact .step hid₀ hi₀ href hout hi

variable (s follow outer)

lemma reaches_of_mem_walk (roots pending : List String) (seen : Roll)
    (hpending : ∀ id ∈ pending, Met s follow outer roots id)
    (hseen : ∀ id ∈ seen.keys, Reaches s follow outer roots id) :
    ∀ id ∈ (walk s follow outer pending seen).keys, Reaches s follow outer roots id := by
  fun_induction walk s follow outer pending seen with
  | case1 seen => exact hseen
  | case2 id rest seen hout ih => exact ih (fun x hx => hpending x (by simp [hx])) hseen
  | case3 id rest seen hout hi ih => exact ih (fun x hx => hpending x (by simp [hx])) hseen
  | case4 id rest seen hout i hi h hlt ih =>
    have hid : Reaches s follow outer roots id :=
      (hpending id (by simp)).reaches (by simpa using hout) hi
    apply ih
    · intro x hx
      rcases List.mem_append.1 hx with hx | hx
      · exact .inr ⟨id, i, hid, hi, hx⟩
      · exact hpending x (by simp [hx])
    · intro x hx
      rw [Roster.keys_push, List.mem_append, List.mem_singleton] at hx
      rcases hx with hx | rfl
      · exact hseen x hx
      · exact hid
  | case5 id rest seen hout i hi h ih => exact ih (fun x hx => hpending x (by simp [hx])) hseen

lemma mem_walk_of_mem_seen (pending : List String) (seen : Roll) :
    ∀ id ∈ seen.keys, id ∈ (walk s follow outer pending seen).keys := by
  fun_induction walk s follow outer pending seen with
  | case1 seen => exact fun _ h => h
  | case2 id rest seen hout ih => exact ih
  | case3 id rest seen hout hi ih => exact ih
  | case4 id rest seen hout i hi h hlt ih =>
    intro x hx
    exact ih x (by rw [Roster.keys_push]; exact List.mem_append_left _ hx)
  | case5 id rest seen hout i hi h ih => exact ih

lemma mem_walk_of_mem_pending (pending : List String) (seen : Roll) :
    ∀ id ∈ pending, outer id = false → (s.get? id).isSome →
      id ∈ (walk s follow outer pending seen).keys := by
  fun_induction walk s follow outer pending seen with
  | case1 seen => simp
  | case2 id rest seen hout ih =>
    intro x hx hx' hsome
    rcases List.mem_cons.1 hx with rfl | hx
    · simp [hx'] at hout
    · exact ih x hx hx' hsome
  | case3 id rest seen hout hi ih =>
    intro x hx hx' hsome
    rcases List.mem_cons.1 hx with rfl | hx
    · simp [hi] at hsome
    · exact ih x hx hx' hsome
  | case4 id rest seen hout i hi h hlt ih =>
    intro x hx hx' hsome
    rcases List.mem_cons.1 hx with rfl | hx
    · exact mem_walk_of_mem_seen s follow outer _ _ x (by rw [Roster.keys_push]; simp)
    · exact ih x (List.mem_append_right _ hx) hx' hsome
  | case5 id rest seen hout i hi h ih =>
    intro x hx hx' hsome
    rcases List.mem_cons.1 hx with rfl | hx
    · apply mem_walk_of_mem_seen
      by_contra hnot
      exact h ((Roster.place?_eq_none_iff _ _).2 hnot)
    · exact ih x hx hx' hsome

lemma walk_closed (pending : List String) (seen : Roll) :
    ∀ id ∈ (walk s follow outer pending seen).keys, id ∉ seen.keys → ∀ i, s.get? id = some i →
      ∀ r ∈ follow i, outer r = false → (s.get? r).isSome →
        r ∈ (walk s follow outer pending seen).keys := by
  fun_induction walk s follow outer pending seen with
  | case1 seen => exact fun x hx hnot => absurd hx hnot
  | case2 id rest seen hout ih => exact ih
  | case3 id rest seen hout hi ih => exact ih
  | case4 id rest seen hout i hi h hlt ih =>
    intro x hx hnot j hj r hr hout' hsome
    by_cases hx' : x = id
    · -- the id that has just been listed: its references are pending
      subst hx'
      obtain rfl : i = j := Option.some.inj (hi.symm.trans hj)
      exact mem_walk_of_mem_pending s follow outer _ _ r (List.mem_append_left _ hr) hout' hsome
    · refine ih x hx ?_ j hj r hr hout' hsome
      rw [Roster.keys_push]
      simp [hnot, hx']
  | case5 id rest seen hout i hi h ih => exact ih

/-- **A walk lists what its roots reach.** -/
theorem mem_walk_iff (roots : List String) (id : String) :
    id ∈ (walk s follow outer roots .empty).keys ↔ Reaches s follow outer roots id := by
  constructor
  · exact reaches_of_mem_walk s follow outer roots roots .empty (fun _ h => .inl h)
      (by simp [Roster.keys]) id
  · intro h
    induction h with
    | root hid hout hi => exact mem_walk_of_mem_pending s follow outer _ _ _ hid hout (by simp [hi])
    | step _ hi href hout hi' ih =>
      exact walk_closed s follow outer _ _ _ ih (by simp [Roster.keys]) _ hi _ href hout
        (by simp [hi'])

end Walk

/-- An id that references lead to from the roots of a state, over both arms of branches. -/
abbrev Reachable (s : InstructionSet) (roots : List String) (id : String) : Prop :=
  Reaches s Instruction.references (fun _ => false) roots id

lemma mem_reachable_iff (s : InstructionSet) (roots : List String) (id : String) :
    id ∈ (reachable s roots).keys ↔ Reachable s roots id :=
  mem_walk_iff s _ _ roots id

end Graph

end TimeMarch
