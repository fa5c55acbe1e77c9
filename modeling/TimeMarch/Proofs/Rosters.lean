import Mathlib.Data.List.Nodup
import TimeMarch.Roster

/-!
# Rosters as Finite Maps

A roster is seen through its look-up `get?` and through the list of its names. No name is listed
twice, and inserting changes the look-up at one name only.
-/

namespace TimeMarch.Roster

variable {α : Type}

lemma getElem?_keys (r : Roster α) (i : ℕ) : r.keys[i]? = r.entries[i]?.map Prod.fst := by
  simp [keys, toList]

lemma place?_eq_some_iff_getElem? (r : Roster α) (k : String) (i : ℕ) :
    r.place? k = some i ↔ r.keys[i]? = some k := by
  rw [getElem?_keys, place?, r.places_spec]

lemma length_keys (r : Roster α) : r.keys.length = r.size := by
  simp [keys, toList, size]

lemma nodup_keys (r : Roster α) : r.keys.Nodup := by
  rw [List.nodup_iff_getElem?_ne_getElem?]
  intro i j hij hj heq
  have hi : r.keys[i]? = some r.keys[j] := by rw [heq, List.getElem?_eq_getElem hj]
  have hj' : r.keys[j]? = some r.keys[j] := List.getElem?_eq_getElem hj
  rw [← place?_eq_some_iff_getElem?] at hi hj'
  rw [hi] at hj'
  have := Option.some.inj hj'
  omega

lemma mem_keys_iff (r : Roster α) (k : String) : k ∈ r.keys ↔ ∃ a, r.get? k = some a := by
  simp [keys, get?_eq_some_iff]

lemma mem_values_iff (r : Roster α) (a : α) : a ∈ r.values ↔ ∃ k, r.get? k = some a := by
  simp [values, get?_eq_some_iff]

lemma place?_eq_none_iff (r : Roster α) (k : String) : r.place? k = none ↔ k ∉ r.keys := by
  rw [← contains_iff, contains]
  simp

lemma place?_lt {r : Roster α} {k : String} {i : ℕ} (h : r.place? k = some i) : i < r.size := by
  rw [place?_eq_some_iff_getElem?] at h
  rw [← length_keys]
  exact (List.getElem?_eq_some_iff.1 h).1

lemma place?_congr {β : Type} {r : Roster α} {r' : Roster β} (h : r.keys = r'.keys) (k : String) :
    r.place? k = r'.place? k := by
  apply Option.ext
  intro i
  rw [place?_eq_some_iff_getElem?, place?_eq_some_iff_getElem?, h]

lemma keys_push (r : Roster α) (k : String) (a : α) (h : r.place? k = none) :
    (r.push k a h).keys = r.keys ++ [k] := by
  simp [keys]

lemma get?_push (r : Roster α) (k : String) (a : α) (h : r.place? k = none) (k' : String) :
    (r.push k a h).get? k' = if k = k' then some a else r.get? k' := by
  apply Option.ext
  intro b
  rw [get?_eq_some_iff, toList_push, List.mem_append, List.mem_singleton, ← get?_eq_some_iff]
  by_cases hk : k = k'
  · subst hk
    -- a name that has no place has no content either
    have hnone : r.get? k = none := by simp [get?, h]
    simp [hnone, eq_comm]
  · simp [hk, Ne.symm hk]

lemma get?_set {r : Roster α} {k : String} {i : ℕ} (h : r.place? k = some i) (a : α)
    (k' : String) : (r.set i a).get? k' = if k = k' then some a else r.get? k' := by
  have hplace : (r.set i a).place? k' = r.place? k' := rfl
  rw [get?, hplace]
  cases hk' : r.place? k' with
  | none =>
    have hne : k ≠ k' := by rintro rfl; rw [h] at hk'; cases hk'
    simp [get?, hk', hne]
  | some j =>
    have hj := (r.places_spec k' j).1 hk'
    have hi := (r.places_spec k i).1 h
    obtain ⟨e, he, rfl⟩ := Option.map_eq_some_iff.1 hj
    by_cases hij : i = j
    · subst hij
      rw [he, Option.map_some, Option.some.injEq] at hi
      simp [set, Array.getElem?_modify, he, hi]
    · have hne : k ≠ e.1 := by
        rintro rfl
        rw [h] at hk'
        exact hij (Option.some.inj hk')
      simp [get?, set, Array.getElem?_modify, hk', he, hij, hne]

lemma get?_insert (r : Roster α) (k : String) (a : α) (k' : String) :
    (r.insert k a).get? k' = if k = k' then some a else r.get? k' := by
  unfold insert
  split
  · exact get?_push _ _ _ _ _
  · rename_i h
    exact get?_set h a k'

lemma toList_insert_of_notMem {r : Roster α} {k : String} (h : k ∉ r.keys) (a : α) :
    (r.insert k a).toList = r.toList ++ [(k, a)] := by
  have hnone := (place?_eq_none_iff r k).2 h
  unfold insert
  split
  · exact toList_push _ _ _ _
  · rename_i hsome
    exact absurd (hnone.symm.trans hsome) (by simp)

lemma get?_eq_some_iff_place? (r : Roster α) (k : String) (a : α) :
    r.get? k = some a ↔ ∃ i, r.place? k = some i ∧ r.values[i]? = some a := by
  simp [get?, values, toList, Option.bind_eq_some_iff]

lemma get?_empty (k : String) : (empty : Roster α).get? k = none := by
  simp [get?]

lemma get?_foldl_insert (l : List (String × α)) (h : (l.map Prod.fst).Nodup) (r : Roster α)
    (k : String) (a : α) :
    (l.foldl (fun r e => r.insert e.1 e.2) r).get? k = some a ↔
      (k, a) ∈ l ∨ k ∉ l.map Prod.fst ∧ r.get? k = some a := by
  induction l generalizing r with
  | nil => simp
  | cons e l ih =>
    obtain ⟨k₀, a₀⟩ := e
    rw [List.map_cons, List.nodup_cons] at h
    rw [List.foldl_cons, ih h.2, get?_insert]
    by_cases hk : k₀ = k
    · subst hk
      have hnot : (k₀, a) ∉ l := fun hm => h.1 (List.mem_map.2 ⟨_, hm, rfl⟩)
      simp only [if_true, hnot, h.1, List.mem_cons, List.map_cons, Prod.mk.injEq, true_and]
      simp [eq_comm]
    · simp [hk, Ne.symm hk]

lemma get?_ofList {l : List (String × α)} (h : (l.map Prod.fst).Nodup) (k : String) (a : α) :
    (ofList l).get? k = some a ↔ (k, a) ∈ l := by
  have hfold := get?_foldl_insert l h empty k a
  simp only [get?_empty, reduceCtorEq, and_false, or_false] at hfold
  exact hfold

end TimeMarch.Roster
