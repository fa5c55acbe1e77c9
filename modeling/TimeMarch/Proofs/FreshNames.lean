import Mathlib.Data.List.Nodup
import Mathlib.Data.List.Perm.Subperm
import TimeMarch.Name

/-!
# Fresh Names Are Free

Numbers behind one stem give different names. Of more names than can be taken one is free, so
counting up comes to a free name before the rounds are used up.
-/

namespace TimeMarch.Name

lemma numbered_injective (stem : String) :
    Function.Injective fun k : ℕ => stem ++ toString k := by
  intro j k h
  have hlist : (toString j).toList = (toString k).toList := by
    simpa using congrArg String.toList h
  have hdigits : Nat.toDigits 10 j = Nat.toDigits 10 k := by
    simpa only [Nat.toString_eq_repr, Nat.toList_repr] using hlist
  simpa using congrArg (fun digits => Nat.ofDigitChars 10 digits 0) hdigits

lemma ne_numbered (stem : String) (k : ℕ) : stem ≠ stem ++ toString k := by
  intro h
  have hlist : (toString k).toList = [] := by
    simpa using congrArg String.toList h
  rw [Nat.toString_eq_repr, Nat.toList_repr] at hlist
  exact Nat.toDigits_ne_nil hlist

lemma nodup_numbered (stem : String) (n : ℕ) :
    (stem :: (List.range n).map fun k => stem ++ toString k).Nodup := by
  refine List.nodup_cons.2 ⟨fun hmem => ?_, List.nodup_range.map (numbered_injective stem)⟩
  obtain ⟨k, -, hk⟩ := List.mem_map.1 hmem
  exact ne_numbered stem k hk.symm

variable (taken : String → Bool) (stem : String)

lemma probe_spec (k rounds : ℕ) : ∃ j, probe taken stem k rounds = stem ++ toString j ∧
    k ≤ j ∧ (∀ i, k ≤ i → i < j → taken (stem ++ toString i) = true) ∧
    (taken (stem ++ toString j) = false ∨ j = k + rounds) := by
  induction rounds generalizing k with
  | zero => exact ⟨k, rfl, Nat.le_refl k, fun i hi hlt => by omega, .inr rfl⟩
  | succ rounds ih =>
    rw [probe]
    split
    · obtain ⟨j, hj, hle, hbefore, hend⟩ := ih (k + 1)
      refine ⟨j, hj, by omega, fun i hi hlt => ?_, hend.imp_right fun h => by omega⟩
      rcases Nat.eq_or_lt_of_le hi with rfl | hi
      · assumption
      · exact hbefore i hi hlt
    · rename_i hfree
      exact ⟨k, rfl, Nat.le_refl k, fun i hi hlt => by omega, .inl (Bool.not_eq_true _ ▸ hfree)⟩

/-- **A fresh name is free**, if the bound is not less than the number of names that are taken. -/
theorem taken_fresh {bound : ℕ}
    (hbound : ∀ l : List String, l.Nodup → (∀ n ∈ l, taken n = true) → l.length ≤ bound) :
    taken (fresh taken bound stem) = false := by
  unfold fresh
  split
  · rename_i hstem
    obtain ⟨j, hj, -, hbefore, hfree | hlast⟩ := probe_spec taken stem 0 bound
    · rwa [hj]
    · -- else the stem and the numbers up to the bound are one name too many
      rw [Nat.zero_add] at hlast
      subst hlast
      have hlength := hbound _ (nodup_numbered stem j) ?_
      · simp only [List.length_cons, List.length_map, List.length_range] at hlength
        omega
      · intro n hn
        rcases List.mem_cons.1 hn with rfl | hn
        · exact hstem
        · obtain ⟨k, hk, rfl⟩ := List.mem_map.1 hn
          exact hbefore k (Nat.zero_le k) (List.mem_range.1 hk)
  · rename_i hstem
    exact Bool.not_eq_true _ ▸ hstem

def Numbered (stem name : String) : Prop := name = stem ∨ ∃ k : ℕ, name = stem ++ toString k

/-- The first free one of the stem and the stem with the numbers 0, 1, … behind it. -/
structure FirstFree (taken : String → Prop) (stem name : String) : Prop where
  free : ¬taken name
  first : name = stem ∨
    taken stem ∧ ∃ k : ℕ, name = stem ++ toString k ∧ ∀ i < k, taken (stem ++ toString i)

lemma FirstFree.congr {taken taken' : String → Prop} {stem name : String}
    (h : FirstFree taken stem name) (hiff : ∀ n, taken n ↔ taken' n) :
    FirstFree taken' stem name := by
  have heq : taken = taken' := funext fun n => propext (hiff n)
  exact heq ▸ h

lemma fresh_numbered (bound : ℕ) : Numbered stem (fresh taken bound stem) := by
  unfold fresh
  split
  · obtain ⟨k, hk, -⟩ := probe_spec taken stem 0 bound
    exact .inr ⟨k, hk⟩
  · exact .inl rfl

lemma firstFree_fresh {bound : ℕ}
    (hbound : ∀ l : List String, l.Nodup → (∀ n ∈ l, taken n = true) → l.length ≤ bound) :
    FirstFree (fun n => taken n = true) stem (fresh taken bound stem) := by
  refine ⟨by simp [taken_fresh taken stem hbound], ?_⟩
  unfold fresh
  split
  · rename_i hstem
    obtain ⟨k, hk, -, hbefore, -⟩ := probe_spec taken stem 0 bound
    exact .inr ⟨hstem, k, hk, fun i hi => hbefore i (Nat.zero_le i) hi⟩
  · exact .inl rfl

end TimeMarch.Name
