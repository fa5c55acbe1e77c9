import Mathlib.Data.List.Nodup

/-!
# Computations That Succeed

A computation that can fail has succeeded exactly if each of its parts has. Here this is said once
for sequencing, for passing over a list, and for collecting along a list.
-/

namespace TimeMarch

variable {ε α β : Type}

lemma bind_eq_ok {x : Except ε α} {f : α → Except ε β} {b : β} :
    (x >>= f) = .ok b ↔ ∃ a, x = .ok a ∧ f a = .ok b := by
  cases x with
  | ok a =>
    refine ⟨fun h => ⟨a, rfl, h⟩, fun ⟨a', ha, h⟩ => ?_⟩
    obtain rfl := Except.ok.inj ha
    exact h
  | error e => exact ⟨fun h => (by cases h), fun ⟨a, ha, _⟩ => (by cases ha)⟩

lemma toOption_eq_some {x : Except ε α} {a : α} : x.toOption = some a ↔ x = .ok a := by
  cases x <;> simp [Except.toOption]

lemma map_eq_error {x : Except ε α} {f : α → β} {e : ε} : x.map f = .error e ↔ x = .error e := by
  cases x <;> simp [Except.map]

lemma forM_eq_ok {l : List α} {f : α → Except ε Unit} :
    l.forM f = .ok () ↔ ∀ a ∈ l, f a = .ok () := by
  induction l with
  | nil => exact ⟨fun _ _ ha => (by cases ha), fun _ => rfl⟩
  | cons a l ih =>
    have hcons : (a :: l).forM f = (f a >>= fun _ => l.forM f) := rfl
    rw [hcons, bind_eq_ok, List.forall_mem_cons, ← ih]
    exact ⟨fun ⟨_, ha, hl⟩ => ⟨ha, hl⟩, fun ⟨ha, hl⟩ => ⟨(), ha, hl⟩⟩

/-- What holds at first and what every element keeps, holds of the result of a fold. -/
lemma foldlM_induction {f : β → α → Except ε β} {P : List α → β → Prop}
    (step : ∀ done b a b', P done b → f b a = .ok b' → P (done ++ [a]) b') {l : List α} {b b' : β}
    (h₀ : P [] b) (h : l.foldlM f b = .ok b') : P l b' := by
  have hfold : ∀ (l done : List α) (b : β), P done b → l.foldlM f b = .ok b' →
      P (done ++ l) b' := by
    intro l
    induction l with
    | nil =>
      intro done b hb h
      obtain rfl : b = b' := Except.ok.inj h
      simpa using hb
    | cons a l ih =>
      intro done b hb h
      rw [List.foldlM_cons, bind_eq_ok] at h
      obtain ⟨b₁, h₁, h⟩ := h
      rw [List.append_cons]
      exact ih _ _ (step done b a b₁ hb h₁) h
  exact hfold l [] b h₀ h

lemma exists_foldlM {f : β → α → Except ε β} {l : List α}
    (h : ∀ a ∈ l, ∀ b, ∃ b', f b a = .ok b') (b : β) : ∃ b', l.foldlM f b = .ok b' := by
  induction l generalizing b with
  | nil => exact ⟨b, rfl⟩
  | cons a l ih =>
    rw [List.forall_mem_cons] at h
    obtain ⟨b₁, h₁⟩ := h.1 b
    obtain ⟨b', hb'⟩ := ih h.2 b₁
    exact ⟨b', by rw [List.foldlM_cons, bind_eq_ok]; exact ⟨b₁, h₁, hb'⟩⟩

section Collect

variable {f : α → Except ε (Option β)} {l : List α}

lemma filterMapM_cons_eq_ok {a : α} {r : List β} :
    (a :: l).filterMapM f = .ok r ↔
      (f a = .ok none ∧ l.filterMapM f = .ok r) ∨
      ∃ b r', f a = .ok (some b) ∧ l.filterMapM f = .ok r' ∧ r = b :: r' := by
  rw [List.filterMapM_cons, bind_eq_ok]
  constructor
  · rintro ⟨o, ho, h⟩
    cases o with
    | none => exact .inl ⟨ho, h⟩
    | some b =>
      obtain ⟨r', hr', h⟩ := bind_eq_ok.1 h
      exact .inr ⟨b, r', ho, hr', (Except.ok.inj h).symm⟩
  · rintro (⟨ho, h⟩ | ⟨b, r', ho, hr', rfl⟩)
    · exact ⟨none, ho, h⟩
    · exact ⟨some b, ho, bind_eq_ok.2 ⟨r', hr', rfl⟩⟩

lemma mem_of_filterMapM {r : List β} (h : l.filterMapM f = .ok r) (b : β) :
    b ∈ r ↔ ∃ a ∈ l, f a = .ok (some b) := by
  induction l generalizing r with
  | nil =>
    obtain rfl : [] = r := Except.ok.inj h
    simp
  | cons a l ih =>
    rcases filterMapM_cons_eq_ok.1 h with ⟨ha, hl⟩ | ⟨b', r', ha, hl, rfl⟩
    · simp [ih hl, ha]
    · simp [ih hl, ha, eq_comm]

lemma exists_of_filterMapM {r : List β} (h : l.filterMapM f = .ok r) {a : α} (ha : a ∈ l) :
    ∃ o, f a = .ok o := by
  induction l generalizing r with
  | nil => simp at ha
  | cons a' l ih =>
    have hhead : ∃ o r', f a' = .ok o ∧ l.filterMapM f = .ok r' := by
      rcases filterMapM_cons_eq_ok.1 h with ⟨ha', hl⟩ | ⟨b', r', ha', hl, -⟩
      · exact ⟨_, _, ha', hl⟩
      · exact ⟨_, _, ha', hl⟩
    obtain ⟨o, r', ho, hl⟩ := hhead
    rcases List.mem_cons.1 ha with rfl | ha
    · exact ⟨o, ho⟩
    · exact ih hl ha

lemma exists_filterMapM (h : ∀ a ∈ l, ∃ o, f a = .ok o) : ∃ r, l.filterMapM f = .ok r := by
  induction l with
  | nil => exact ⟨[], rfl⟩
  | cons a l ih =>
    obtain ⟨r, hr⟩ := ih fun a' ha' => h a' (List.mem_cons_of_mem _ ha')
    obtain ⟨o, ho⟩ := h a (by simp)
    cases o with
    | none => exact ⟨r, filterMapM_cons_eq_ok.2 (.inl ⟨ho, hr⟩)⟩
    | some b => exact ⟨b :: r, filterMapM_cons_eq_ok.2 (.inr ⟨b, r, ho, hr, rfl⟩)⟩

lemma sublist_of_filterMapM {key : β → α} {r : List β}
    (hkey : ∀ a b, f a = .ok (some b) → key b = a) (h : l.filterMapM f = .ok r) :
    (r.map key).Sublist l := by
  induction l generalizing r with
  | nil =>
    obtain rfl : [] = r := Except.ok.inj h
    simp
  | cons a l ih =>
    rcases filterMapM_cons_eq_ok.1 h with ⟨ha, hl⟩ | ⟨b, r', ha, hl, rfl⟩
    · exact (ih hl).trans (List.sublist_cons_self _ _)
    · rw [List.map_cons, hkey a b ha]
      exact (ih hl).cons_cons _

end Collect

end TimeMarch
