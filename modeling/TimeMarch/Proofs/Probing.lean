import Mathlib.Data.Finset.Card
import Mathlib.Order.Bounds.Basic
import TimeMarch.Proofs.SymbolTables

/-!
# Counting Up to a Free Name

A name is made free by counting up behind its stem, with no limit to the count but that the taken
names are finitely many. Here counting is looked at without a number of rounds. It comes to the
first free number, which is less than the number of taken names, so rounds that are as many as the
taken names never matter.
-/

namespace TimeMarch.Name

section

variable {taken : String → Prop} {stem name : String}

variable (taken stem) in
inductive CountsTo : ℕ → String → Prop where
  | free {k : ℕ} (h : ¬taken (stem ++ toString k)) : CountsTo k (stem ++ toString k)
  | next {k : ℕ} {name : String} (h : taken (stem ++ toString k)) (hrest : CountsTo (k + 1) name) :
      CountsTo k name

variable (taken stem name) in
/-- What becomes of a stem: it is kept if it is free, else one counts up from zero. -/
def Picks : Prop := ¬taken stem ∧ name = stem ∨ taken stem ∧ CountsTo taken stem 0 name

lemma CountsTo.exists_first {k : ℕ} (h : CountsTo taken stem k name) :
    ∃ j, k ≤ j ∧ name = stem ++ toString j ∧ ¬taken (stem ++ toString j) ∧
      ∀ i, k ≤ i → i < j → taken (stem ++ toString i) := by
  induction h with
  | free h => exact ⟨_, Nat.le_refl _, rfl, h, fun i hi hlt => by omega⟩
  | @next k name h _ ih =>
    obtain ⟨j, hle, hname, hfree, hbefore⟩ := ih
    refine ⟨j, by omega, hname, hfree, fun i hi hlt => ?_⟩
    rcases Nat.eq_or_lt_of_le hi with rfl | hi
    · exact h
    · exact hbefore i hi hlt

lemma countsTo_of_first {k n : ℕ} (hfree : ¬taken (stem ++ toString (k + n)))
    (hbefore : ∀ i, k ≤ i → i < k + n → taken (stem ++ toString i)) :
    CountsTo taken stem k (stem ++ toString (k + n)) := by
  induction n generalizing k with
  | zero => exact .free hfree
  | succ n ih =>
    have hnumber : k + (n + 1) = k + 1 + n := by omega
    rw [hnumber] at hfree hbefore ⊢
    exact .next (hbefore k (Nat.le_refl k) (by omega))
      (ih hfree fun i hi hlt => hbefore i (by omega) hlt)

lemma picks_iff_firstFree : Picks taken stem name ↔ FirstFree taken stem name := by
  constructor
  · rintro (⟨hfree, rfl⟩ | ⟨hstem, hcount⟩)
    · exact ⟨hfree, .inl rfl⟩
    · obtain ⟨k, -, rfl, hfree, hbefore⟩ := hcount.exists_first
      exact ⟨hfree, .inr ⟨hstem, k, rfl, fun i hi => hbefore i (Nat.zero_le i) hi⟩⟩
  · rintro ⟨hfree, rfl | ⟨hstem, k, rfl, hbefore⟩⟩
    · exact .inl ⟨hfree, rfl⟩
    · have hcount : CountsTo taken stem 0 (stem ++ toString (0 + k)) :=
        countsTo_of_first (by rwa [Nat.zero_add]) fun i _ hi => hbefore i (by omega)
      rw [Nat.zero_add] at hcount
      exact .inr ⟨hstem, hcount⟩

lemma FirstFree.unique {name' : String} (h : FirstFree taken stem name)
    (h' : FirstFree taken stem name') : name = name' := by
  obtain ⟨hfree, rfl | ⟨hstem, k, rfl, hbefore⟩⟩ := h
  · obtain ⟨-, rfl | ⟨hstem', -⟩⟩ := h'
    · rfl
    · exact absurd hstem' hfree
  · obtain ⟨hfree', rfl | ⟨-, k', rfl, hbefore'⟩⟩ := h'
    · exact absurd hstem hfree'
    · obtain hlt | rfl | hlt := Nat.lt_trichotomy k k'
      · exact absurd (hbefore' k hlt) hfree
      · rfl
      · exact absurd (hbefore k' hlt) hfree'

end

/-! ### Finitely many names -/

section

variable {taken : Finset String} {stem : String}

lemma length_le_card {l : List String} (hl : l.Nodup) (htaken : ∀ n ∈ l, n ∈ taken) :
    l.length ≤ taken.card := by
  rw [← List.toFinset_card_of_nodup hl]
  exact Finset.card_le_card fun n hn => htaken n (List.mem_toFinset.1 hn)

lemma firstFree_fresh_of_card_le {bound : ℕ} (hbound : taken.card ≤ bound) :
    FirstFree (· ∈ taken) stem (fresh (fun n => decide (n ∈ taken)) bound stem) := by
  refine (firstFree_fresh _ stem fun l hl htaken => ?_).congr fun n => decide_eq_true_iff
  exact (length_le_card hl fun n hn => of_decide_eq_true (htaken n hn)).trans hbound

lemma lt_card_of_taken {k : ℕ} (hstem : stem ∈ taken)
    (hbefore : ∀ i < k, stem ++ toString i ∈ taken) : k < taken.card := by
  have hall : ∀ n ∈ stem :: (List.range k).map fun i => stem ++ toString i, n ∈ taken := by
    intro n hn
    rcases List.mem_cons.1 hn with rfl | hn
    · exact hstem
    · obtain ⟨i, hi, rfl⟩ := List.mem_map.1 hn
      exact hbefore i (List.mem_range.1 hi)
  have hlength := length_le_card (nodup_numbered stem k) hall
  simp only [List.length_cons, List.length_map, List.length_range] at hlength
  omega

lemma FirstFree.exists_isLeast {name : String} (h : FirstFree (· ∈ taken) stem name)
    (hstem : stem ∈ taken) : ∃ k < taken.card,
      IsLeast { k : ℕ | stem ++ toString k ∉ taken } k ∧ name = stem ++ toString k := by
  obtain ⟨hfree, rfl | ⟨-, k, rfl, hbefore⟩⟩ := h
  · exact absurd hstem hfree
  · refine ⟨k, lt_card_of_taken hstem hbefore, ⟨hfree, fun j hj => ?_⟩, rfl⟩
    by_contra hlt
    exact hj (hbefore j (by omega))

end

/-! ### Legal names stay as they are -/

lemma isDigit_of_isLetter {c : Char} (h : isLetter c = true) : c.isDigit = false := by
  rw [isLetter, Bool.or_eq_true, beq_iff_eq] at h
  rcases h with h | rfl
  · -- the letters stand behind the digits
    have hbehind : '9'.val < c.val := by
      rcases Bool.or_eq_true_iff.1 h with hupper | hlower
      · exact UInt32.lt_of_lt_of_le (by decide) (of_decide_eq_true hupper).1
      · have hfirst := (Bool.and_eq_true_iff.1 hlower).1
        exact UInt32.lt_of_lt_of_le (by decide) (of_decide_eq_true hfirst)
    exact Bool.and_eq_false_iff.2 (.inr (decide_eq_false (UInt32.not_le.2 hbehind)))
  · decide

lemma sanitizeList_of_isLegalList {cs : List Char} (h : isLegalList cs = true) :
    sanitizeList cs = cs := by
  cases cs with
  | nil => simp [isLegalList] at h
  | cons c cs =>
    simp only [isLegalList, Bool.and_eq_true, List.all_eq_true] at h
    have hkeep : ∀ d, isLetterOrDigit d = true → (if d.isAlphanum then d else '_') = d := by
      intro d hd
      rw [isLetterOrDigit, Bool.or_eq_true, beq_iff_eq] at hd
      split
      · rfl
      · exact (hd.resolve_left ‹_›).symm
    have hc : isLetterOrDigit c = true := by
      have hletter := h.1
      rw [isLetter, Bool.or_eq_true] at hletter
      rw [isLetterOrDigit, Char.isAlphanum, Bool.or_eq_true, Bool.or_eq_true]
      exact hletter.imp_left .inl
    have hmap : (c :: cs).map (fun d => if d.isAlphanum then d else '_') = c :: cs :=
      (List.map_congr_left (List.forall_mem_cons.2
        ⟨hkeep c hc, fun d hd => hkeep d (h.2 d hd)⟩)).trans (List.map_id _)
    rw [sanitizeList, hmap]
    simp [isDigit_of_isLetter h.1]

lemma sanitize_of_isLegal {name : String} (h : isLegal name = true) : sanitize name = name := by
  rw [sanitize, sanitizeList_of_isLegalList h, String.ofList_toList]

/-- **Probing comes to the first free name.** Whatever names are taken, as long as they are finitely
many, counting up comes to an end: to the stem if it is free, and else to the stem with the least
number behind it that makes it free. What is sanitised is legal and stays so when it is numbered;
legal names are not changed. -/
theorem fresh_first_free_and_legal (taken : Finset String) (bound : ℕ)
    (hbound : taken.card ≤ bound) :
    (∀ stem, (∀ name, Picks (· ∈ taken) stem name ↔
        name = fresh (fun n => decide (n ∈ taken)) bound stem) ∧
      (stem ∉ taken → fresh (fun n => decide (n ∈ taken)) bound stem = stem) ∧
      (stem ∈ taken → ∃ k < taken.card, IsLeast { k : ℕ | stem ++ toString k ∉ taken } k ∧
        fresh (fun n => decide (n ∈ taken)) bound stem = stem ++ toString k)) ∧
    ∀ name, isLegal (sanitize name) = true ∧ (isLegal name = true → sanitize name = name) ∧
      isLegal (fresh (fun n => decide (n ∈ taken)) bound (sanitize name)) = true := by
  refine ⟨fun stem => ⟨fun name => ?_, fun hstem => ?_, fun hstem => ?_⟩,
    fun name =>
      ⟨isLegal_sanitize name, sanitize_of_isLegal, isLegal_fresh _ _ (isLegal_sanitize name)⟩⟩
  · rw [picks_iff_firstFree]
    exact ⟨fun h => h.unique (firstFree_fresh_of_card_le hbound),
      fun h => h ▸ firstFree_fresh_of_card_le hbound⟩
  · rw [fresh, if_neg (by simpa using hstem)]
  · exact (firstFree_fresh_of_card_le hbound).exists_isLeast hstem

theorem fresh_first_free_and_legal_numbered :
    fresh (fun n => decide (n ∈ ({"y_", "y_0", "y_1", "y_3"} : Finset String))) 4 (sanitize "y^") =
      "y_2" ∧
    Picks (· ∈ ({"y_", "y_0", "y_1", "y_3"} : Finset String)) "y_" "y_2" ∧
    isLegal "y_2" = true := by
  have hspec := fresh_first_free_and_legal {"y_", "y_0", "y_1", "y_3"} 4 (by decide +kernel)
  have hsanitize : sanitize "y^" = "y_" := by decide +kernel
  have hfresh : fresh (fun n => decide (n ∈ ({"y_", "y_0", "y_1", "y_3"} : Finset String))) 4 "y_" =
      "y_2" := by decide +kernel
  have hlegal := (hspec.2 "y^").2.2
  rw [hsanitize, hfresh] at hlegal
  refine ⟨by rw [hsanitize, hfresh], ?_, hlegal⟩
  exact ((hspec.1 "y_").1 "y_2").2 hfresh.symm

end TimeMarch.Name
