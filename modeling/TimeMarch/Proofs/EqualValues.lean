import Mathlib
import TimeMarch.Value

/-!
# Values That Are Equal

Equality of values compares numbers as numbers. It is not identity: the two zeros are equal without
being the same, and a NaN is not equal to itself. Apart from these it is. Two values are equal
exactly if they are the same once their zeros have lost their signs, and there is no NaN in them.

The lemmas on `Float` that this rests on are in no part of the library smaller than the whole.
-/

namespace TimeMarch

/-! ### Numbers -/

def unsignedZero (x : Float) : Float := if x = -0 then 0 else x

lemma unsignedZero_eq_nan_iff {x : Float} : unsignedZero x = Float.nan ↔ x = Float.nan := by
  unfold unsignedZero
  split
  · rename_i hx
    subst hx
    decide
  · rfl

lemma beq_float_iff {x y : Float} :
    (x == y) = true ↔ x ≠ Float.nan ∧ unsignedZero x = unsignedZero y := by
  rw [Float.beq_iff_ne_nan_and_eq, unsignedZero, unsignedZero]
  constructor
  · rintro ⟨hx, -, rfl | ⟨rfl, rfl⟩ | ⟨rfl, rfl⟩⟩ <;> simp [hx]
  · rintro ⟨hx, heq⟩
    split_ifs at heq with hxneg hyneg hyneg
    · subst hxneg hyneg
      exact ⟨hx, hx, .inl rfl⟩
    · subst hxneg heq
      exact ⟨hx, by decide, .inr (.inr ⟨rfl, rfl⟩)⟩
    · subst hyneg heq
      exact ⟨hx, by decide, .inr (.inl ⟨rfl, rfl⟩)⟩
    · subst heq
      exact ⟨hx, hx, .inl rfl⟩

lemma beq_floats_iff {xs ys : List Float} :
    (xs == ys) = true ↔ Float.nan ∉ xs ∧ xs.map unsignedZero = ys.map unsignedZero := by
  induction xs generalizing ys with
  | nil => cases ys <;> simp
  | cons x xs ih =>
    cases ys with
    | nil => simp
    | cons y ys =>
      rw [List.cons_beq_cons, Bool.and_eq_true, beq_float_iff, ih]
      simp only [List.mem_cons, not_or, List.map_cons, List.cons.injEq, Ne.eq_def]
      tauto

namespace Value

/-! ### Values -/

/-- The same sort of value with the same bits in it. All NaNs have the same bits. -/
def Identical : Value → Value → Prop
  | scalar x, scalar y => x.toBits = y.toBits
  | bool a, bool b => a = b
  | vector xs, vector ys => xs.map Float.toBits = ys.map Float.toBits
  | _, _ => False

instance : ∀ v w : Value, Decidable (v.Identical w)
  | scalar x, scalar y => inferInstanceAs (Decidable (x.toBits = y.toBits))
  | bool a, bool b => inferInstanceAs (Decidable (a = b))
  | vector xs, vector ys =>
    inferInstanceAs (Decidable (xs.map Float.toBits = ys.map Float.toBits))
  | scalar _, bool _ | scalar _, vector _ | bool _, scalar _ => .isFalse id
  | bool _, vector _ | vector _, scalar _ | vector _, bool _ => .isFalse id

def unsignedZeros : Value → Value
  | scalar x => scalar (unsignedZero x)
  | bool b => bool b
  | vector xs => vector (xs.map unsignedZero)

def numbers : Value → List Float
  | scalar x => [x]
  | bool _ => []
  | vector xs => xs

lemma identical_iff {v w : Value} : v.Identical w ↔ v = w := by
  have hbits : Function.Injective Float.toBits := fun x y => Float.toBits_inj.1
  cases v <;> cases w <;> simp [Identical, Float.toBits_inj, hbits.list_map.eq_iff]

lemma nan_mem_unsignedZeros {v : Value} :
    Float.nan ∈ v.unsignedZeros.numbers ↔ Float.nan ∈ v.numbers := by
  cases v with
  | scalar x =>
    simp [unsignedZeros, numbers, eq_comm (a := Float.nan), unsignedZero_eq_nan_iff]
  | bool b => rfl
  | vector xs => simp [unsignedZeros, numbers, unsignedZero_eq_nan_iff]

/-- **When values are equal**: no NaN is in them, and they are the same but for the signs of
zeros. -/
theorem beq_iff {v w : Value} :
    (v == w) = true ↔ Float.nan ∉ v.numbers ∧ v.unsignedZeros = w.unsignedZeros := by
  have hbeq : (v == w) = beq v w := rfl
  rw [hbeq]
  cases v <;> cases w <;>
    simp [beq, numbers, unsignedZeros, beq_float_iff, beq_floats_iff, eq_comm (a := Float.nan)]

lemma beq_self_of_beq {v w : Value} (h : (v == w) = true) : (w == w) = true := by
  obtain ⟨hnan, hsame⟩ := beq_iff.1 h
  rw [← nan_mem_unsignedZeros, hsame, nan_mem_unsignedZeros] at hnan
  exact beq_iff.2 ⟨hnan, rfl⟩

lemma beq_congr {v w : Value} (h : (v == w) = true) (u : Value) : (u == v) = (u == w) := by
  rw [Bool.eq_iff_iff, beq_iff, beq_iff, (beq_iff.1 h).2]

end Value

end TimeMarch
