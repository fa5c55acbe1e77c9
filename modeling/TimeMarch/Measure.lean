/-!
# Measures

Recursion that does not follow the shape of its data ends because some count becomes smaller. Here
are the two ways of counting that we need: how many elements of a list have a property, and the
total of a weight over a list.
-/

namespace TimeMarch

variable {α : Type}

/-- Fewer elements have a stronger property, if one element has only the weaker one. -/
theorem countP_lt_countP {p q : α → Bool} {l : List α} {a : α}
    (hqp : ∀ x, q x = true → p x = true) (ha : a ∈ l) (hp : p a = true) (hq : q a = false) :
    l.countP q < l.countP p := by
  induction l with
  | nil => simp at ha
  | cons b l ih =>
    rw [List.countP_cons, List.countP_cons]
    rcases List.mem_cons.1 ha with rfl | ha
    · have hle : l.countP q ≤ l.countP p := List.countP_mono_left fun x _ => hqp x
      simp only [hp, hq, if_true]
      simpa using Nat.lt_succ_of_le hle
    · have hb : (if q b = true then 1 else 0) ≤ if p b = true then 1 else 0 := by
        by_cases h : q b = true
        · simp [h, hqp b h]
        · simp [h]
      exact Nat.add_lt_add_of_lt_of_le (ih ha) hb

/-- The weights of the elements of a list, added up. -/
def total (f : α → Nat) : List α → Nat
  | [] => 0
  | a :: l => f a + total f l

theorem le_total (f : α → Nat) {l : List α} {a : α} (h : a ∈ l) : f a ≤ total f l := by
  induction l with
  | nil => simp at h
  | cons b l ih =>
    rcases List.mem_cons.1 h with rfl | h
    · exact Nat.le_add_right _ _
    · exact Nat.le_trans (ih h) (Nat.le_add_left _ _)

theorem total_le_total {f g : α → Nat} (hfg : ∀ x, f x ≤ g x) (l : List α) :
    total f l ≤ total g l := by
  induction l with
  | nil => exact Nat.le_refl _
  | cons b l ih => exact Nat.add_le_add (hfg b) ih

/-- Where one element becomes lighter and none heavier, the total becomes lighter as much. -/
theorem total_add_le {f g : α → Nat} {l : List α} {a : α} {n : Nat} (hfg : ∀ x, f x ≤ g x)
    (ha : a ∈ l) (hn : f a + n ≤ g a) : total f l + n ≤ total g l := by
  induction l with
  | nil => simp at ha
  | cons b l ih =>
    simp only [total]
    rcases List.mem_cons.1 ha with rfl | ha
    · have := total_le_total hfg l
      omega
    · have := ih ha
      have := hfg b
      omega

end TimeMarch
