import Mathlib.Data.List.Nodup
import TimeMarch.Arguments
import TimeMarch.Proofs.Success

/-!
# Exactly When Arguments Can Be Bound

Binding takes the arguments one by one out of a list in which positions and keywords are mixed. What
comes of it can be said without that list: when arguments fit parameters (`Fits`), and which value a
parameter then gets. So keywords may be given in any order, and anywhere among the arguments by
position.
-/

namespace TimeMarch

namespace Arguments

variable {α : Type}

lemma position_add_succ (i k : ℕ) : Target.position (i + (k + 1)) = .position (i + 1 + k) :=
  congrArg Target.position (Nat.succ_add_eq_add_succ i k).symm

/-! ### Taking entries out -/

section

variable (t : Target) (entries : List (Target × α))

lemma take_cons (t' : Target) (a : α) : take t ((t', a) :: entries) =
    if t' = t then (some a, entries) else ((take t entries).1, (t', a) :: (take t entries).2) :=
  rfl

lemma fst_take : (take t entries).1 = entries.lookup t := by
  induction entries with
  | nil => rfl
  | cons e entries ih =>
    obtain ⟨t', a⟩ := e
    rw [take_cons]
    by_cases h : t' = t
    · simp [h]
    · simp [h, List.lookup_cons, beq_false_of_ne (Ne.symm h), ih]

lemma sublist_take : (take t entries).2.Sublist entries := by
  induction entries with
  | nil => exact List.Sublist.refl _
  | cons e entries ih =>
    obtain ⟨t', a⟩ := e
    rw [take_cons]
    split
    · exact List.sublist_cons_self _ _
    · exact ih.cons_cons _

variable {t entries}

lemma lookup_take {t' : Target} (h : t' ≠ t) :
    (take t entries).2.lookup t' = entries.lookup t' := by
  induction entries with
  | nil => rfl
  | cons e entries ih =>
    obtain ⟨t₀, a⟩ := e
    rw [take_cons]
    split
    · rename_i heq
      simp [List.lookup_cons, heq, beq_false_of_ne h]
    · simp [List.lookup_cons, ih]

lemma mem_take (hnodup : (entries.map Prod.fst).Nodup) {e : Target × α} :
    e ∈ (take t entries).2 ↔ e ∈ entries ∧ e.1 ≠ t := by
  induction entries with
  | nil => simp [take]
  | cons e₀ entries ih =>
    obtain ⟨t₀, a⟩ := e₀
    rw [List.map_cons, List.nodup_cons] at hnodup
    rw [take_cons]
    split
    · rename_i heq
      subst heq
      have hother : e ∈ entries → e.1 ≠ t₀ := by
        rintro he rfl
        exact hnodup.1 (List.mem_map.2 ⟨e, he, rfl⟩)
      rw [List.mem_cons]
      constructor
      · exact fun he => ⟨.inr he, hother he⟩
      · rintro ⟨rfl | he, hne⟩
        · exact absurd rfl hne
        · exact he
    · rename_i hne
      simp only [List.mem_cons, ih hnodup.2]
      constructor
      · rintro (rfl | ⟨he, hne'⟩)
        · exact ⟨.inl rfl, hne⟩
        · exact ⟨.inr he, hne'⟩
      · rintro ⟨rfl | he, hne'⟩
        · exact .inl rfl
        · exact .inr ⟨he, hne'⟩

end

/-! ### One parameter after the other -/

section

variable {defaults : String → Option α} {entries : List (Target × α)} {i : ℕ} {p : String}

/-- A parameter gets a value: what stands at its position, else what its keyword gives, else its
default, and not both of the first two. -/
def Gets (defaults : String → Option α) (entries : List (Target × α)) (i : ℕ) (p : String) (v : α) :
    Prop :=
  (entries.lookup (.position i) = none ∨ entries.lookup (.name p) = none) ∧
    ((entries.lookup (.position i)).or (entries.lookup (.name p))).or (defaults p) = some v

def without (i : ℕ) (p : String) (entries : List (Target × α)) : List (Target × α) :=
  (take (.name p) (take (.position i) entries).2).2

lemma lookup_without {t : Target} (hi : t ≠ .position i) (hp : t ≠ .name p) :
    (without i p entries).lookup t = entries.lookup t := by
  rw [without, lookup_take hp, lookup_take hi]

lemma sublist_without : (without i p entries).Sublist entries :=
  (sublist_take _ _).trans (sublist_take _ _)

lemma mem_without (hnodup : (entries.map Prod.fst).Nodup) {e : Target × α} :
    e ∈ without i p entries ↔ e ∈ entries ∧ e.1 ≠ .position i ∧ e.1 ≠ .name p := by
  have hnodup' := hnodup.sublist ((sublist_take (.position i) entries).map Prod.fst)
  rw [without, mem_take hnodup', mem_take hnodup, and_assoc]

lemma bindFrom_cons {params : List String} {values : List α} {left : List (Target × α)} :
    bindFrom defaults i (p :: params) entries = .ok (values, left) ↔ ∃ v rest,
      Gets defaults entries i p v ∧
      bindFrom defaults (i + 1) params (without i p entries) = .ok (rest, left) ∧
      values = v :: rest := by
  -- a value that is found is the one that the parameter gets
  have hfound : ∀ a, (∀ v, Gets defaults entries i p v ↔ a = v) →
      ((bindFrom defaults (i + 1) params (without i p entries) >>= fun r => pure (a :: r.1, r.2)) =
        .ok (values, left) ↔ ∃ v rest, Gets defaults entries i p v ∧
        bindFrom defaults (i + 1) params (without i p entries) = .ok (rest, left) ∧
        values = v :: rest) := by
    intro a ha
    simp only [ha, bind_eq_ok]
    constructor
    · rintro ⟨⟨rest, left'⟩, hrest, hpure⟩
      obtain ⟨rfl, rfl⟩ := Prod.mk.inj (Except.ok.inj hpure)
      exact ⟨a, rest, rfl, hrest, rfl⟩
    · rintro ⟨_, rest, rfl, hrest, rfl⟩
      exact ⟨(rest, left), hrest, rfl⟩
  have hname : (take (.name p) (take (.position i) entries).2).1 = entries.lookup (.name p) := by
    rw [fst_take, lookup_take (by simp)]
  rw [bindFrom]
  simp only [fst_take (.position i), hname]
  cases hposition : entries.lookup (.position i) with
  | some a =>
    cases hkeyword : entries.lookup (.name p) with
    | some b =>
      refine ⟨fun h => (by cases h), fun ⟨v, rest, hv, _⟩ => ?_⟩
      simp [Gets, hposition, hkeyword] at hv
    | none => exact hfound a (by simp [Gets, hposition, hkeyword])
  | none =>
    cases hkeyword : entries.lookup (.name p) with
    | some b => exact hfound b (by simp [Gets, hposition, hkeyword])
    | none =>
      cases hdefault : defaults p with
      | some a => exact hfound a (by simp [Gets, hposition, hkeyword, hdefault])
      | none =>
        refine ⟨fun h => (by cases h), fun ⟨v, rest, hv, _⟩ => ?_⟩
        simp [Gets, hposition, hkeyword, hdefault] at hv

def AllGet (defaults : String → Option α) (entries : List (Target × α)) (i : ℕ)
    (params : List String) (values : List α) : Prop :=
  values.length = params.length ∧ ∀ (k : ℕ) p v, params[k]? = some p → values[k]? = some v →
    Gets defaults entries (i + k) p v

lemma allGet_cons {params : List String} {v : α} {values : List α} :
    AllGet defaults entries i (p :: params) (v :: values) ↔
      Gets defaults entries i p v ∧ AllGet defaults entries (i + 1) params values := by
  constructor
  · rintro ⟨hlength, hall⟩
    refine ⟨hall 0 p v rfl rfl, by simpa using hlength, fun k p' v' hp hv => ?_⟩
    rw [Nat.succ_add_eq_add_succ]
    exact hall (k + 1) p' v' hp hv
  · rintro ⟨hv, hlength, hall⟩
    refine ⟨by simpa using hlength, fun k p' v' hp' hv' => ?_⟩
    cases k with
    | zero =>
      obtain rfl := Option.some.inj hp'
      obtain rfl := Option.some.inj hv'
      exact hv
    | succ k =>
      rw [← Nat.succ_add_eq_add_succ]
      exact hall k p' v' hp' hv'

lemma AllGet.congr {entries' : List (Target × α)} {params : List String} {values : List α}
    (h : AllGet defaults entries i params values)
    (hposition : ∀ k, entries'.lookup (.position (i + k)) = entries.lookup (.position (i + k)))
    (hname : ∀ p ∈ params, entries'.lookup (.name p) = entries.lookup (.name p)) :
    AllGet defaults entries' i params values := by
  refine ⟨h.1, fun k p v hp hv => ?_⟩
  rw [Gets, hposition, hname p (List.mem_of_getElem? hp)]
  exact h.2 k p v hp hv

/-- **Binding gives every parameter its value.** -/
lemma exists_bindFrom_iff {params : List String} (hparams : params.Nodup) {values : List α} :
    (∃ left, bindFrom defaults i params entries = .ok (values, left)) ↔
      AllGet defaults entries i params values := by
  induction params generalizing i entries values with
  | nil =>
    simp [bindFrom, AllGet, eq_comm]
  | cons p params ih =>
    rw [List.nodup_cons] at hparams
    have hothers : ∀ {values}, AllGet defaults (without i p entries) (i + 1) params values ↔
        AllGet defaults entries (i + 1) params values := by
      intro values
      have hposition : ∀ k, (without i p entries).lookup (.position (i + 1 + k)) =
          entries.lookup (.position (i + 1 + k)) :=
        fun k => lookup_without (by simp; omega) (by simp)
      have hname : ∀ p' ∈ params, (without i p entries).lookup (.name p') =
          entries.lookup (.name p') :=
        fun p' hp' => lookup_without (by simp) (by rintro ⟨⟩; exact hparams.1 hp')
      exact ⟨fun h => h.congr (fun k => (hposition k).symm) fun p' hp' => (hname p' hp').symm,
        fun h => h.congr hposition hname⟩
    simp only [bindFrom_cons]
    constructor
    · rintro ⟨left, v, rest, hv, hrest, rfl⟩
      exact allGet_cons.2 ⟨hv, hothers.1 ((ih hparams.2).1 ⟨left, hrest⟩)⟩
    · intro h
      cases values with
      | nil => simp [AllGet] at h
      | cons v values =>
        obtain ⟨hv, hrest⟩ := allGet_cons.1 h
        obtain ⟨left, hleft⟩ := (ih hparams.2).2 (hothers.2 hrest)
        exact ⟨left, v, values, hv, hleft, rfl⟩

lemma mem_of_bindFrom {params : List String} {values : List α} {left : List (Target × α)}
    (h : bindFrom defaults i params entries = .ok (values, left))
    (hnodup : (entries.map Prod.fst).Nodup) {e : Target × α} :
    e ∈ left ↔ e ∈ entries ∧ (∀ k < params.length, e.1 ≠ .position (i + k)) ∧
      ∀ p ∈ params, e.1 ≠ .name p := by
  induction params generalizing i entries values with
  | nil =>
    obtain ⟨rfl, rfl⟩ := Prod.mk.inj (Except.ok.inj h)
    simp
  | cons p params ih =>
    obtain ⟨v, rest, -, hrest, rfl⟩ := bindFrom_cons.1 h
    rw [ih hrest (hnodup.sublist (sublist_without.map Prod.fst)), mem_without hnodup,
      List.length_cons, Nat.forall_lt_succ_left, List.forall_mem_cons]
    simp only [position_add_succ, Nat.add_zero]
    tauto

end

/-! ### Positions and keywords apart -/

def positionals : List (Argument α) → List α
  | [] => []
  | .positional a :: rest => a :: positionals rest
  | .keyword _ _ :: rest => positionals rest

def named : List (Argument α) → List (String × α)
  | [] => []
  | .positional _ :: rest => named rest
  | .keyword n a :: rest => (n, a) :: named rest

section

variable {args : List (Argument α)} {i : ℕ}

lemma keywords_eq (args : List (Argument α)) : keywords args = (named args).map Prod.fst := by
  induction args with
  | nil => rfl
  | cons arg args ih =>
    cases arg with
    | positional a => exact ih
    | keyword n a => exact congrArg (n :: ·) ih

lemma lookup_position (args : List (Argument α)) (i k : ℕ) :
    (targetsFrom i args).lookup (.position (i + k)) = (positionals args)[k]? := by
  induction args generalizing i k with
  | nil => rfl
  | cons arg args ih =>
    cases arg with
    | positional a =>
      rw [targetsFrom, positionals]
      cases k with
      | zero => simp
      | succ k =>
        have hne : Target.position (i + 1 + k) ≠ .position i := by simp; omega
        rw [position_add_succ, List.lookup_cons, beq_false_of_ne hne, List.getElem?_cons_succ]
        exact ih (i + 1) k
    | keyword n a =>
      rw [targetsFrom, positionals, List.lookup_cons, beq_false_of_ne (by simp)]
      exact ih i k

lemma lookup_name (args : List (Argument α)) (i : ℕ) (n : String) :
    (targetsFrom i args).lookup (.name n) = (named args).lookup n := by
  induction args generalizing i with
  | nil => rfl
  | cons arg args ih =>
    cases arg with
    | positional a =>
      rw [targetsFrom, named, List.lookup_cons, beq_false_of_ne (by simp)]
      exact ih (i + 1)
    | keyword m a =>
      rw [targetsFrom, named, List.lookup_cons, List.lookup_cons]
      by_cases h : n = m
      · simp [h]
      · rw [beq_false_of_ne h, beq_false_of_ne (by simpa using h)]
        exact ih i

lemma mem_targetsFrom {t : Target} : t ∈ (targetsFrom i args).map Prod.fst ↔
    (∃ k < (positionals args).length, t = .position (i + k)) ∨
      ∃ n ∈ keywords args, t = .name n := by
  induction args generalizing i with
  | nil => simp [targetsFrom, positionals, keywords]
  | cons arg args ih =>
    cases arg with
    | positional a =>
      have hkeywords : keywords (.positional a :: args) = keywords args := rfl
      rw [targetsFrom, positionals, hkeywords, List.map_cons, List.mem_cons, ih, List.length_cons,
        Nat.exists_lt_succ_left, or_assoc]
      simp only [position_add_succ, Nat.add_zero]
    | keyword n a =>
      have hkeywords : keywords (.keyword n a :: args) = n :: keywords args := rfl
      rw [targetsFrom, positionals, hkeywords, List.map_cons, List.mem_cons, ih,
        List.exists_mem_cons_iff, or_left_comm]

lemma nodup_targetsFrom (h : (keywords args).Nodup) :
    ((targetsFrom i args).map Prod.fst).Nodup := by
  induction args generalizing i with
  | nil => exact List.nodup_nil
  | cons arg args ih =>
    cases arg with
    | positional a =>
      rw [targetsFrom, List.map_cons, List.nodup_cons, mem_targetsFrom]
      refine ⟨?_, ih h⟩
      rintro (⟨k, -, heq⟩ | ⟨n, -, heq⟩)
      · have := Target.position.inj heq
        omega
      · cases heq
    | keyword n a =>
      have h : n ∉ keywords args ∧ (keywords args).Nodup := List.nodup_cons.1 h
      rw [targetsFrom, List.map_cons, List.nodup_cons, mem_targetsFrom]
      refine ⟨?_, ih h.2⟩
      rintro (⟨k, -, heq⟩ | ⟨m, hm, heq⟩)
      · cases heq
      · cases heq
        exact h.1 hm

lemma firstRepeated?_eq_none_iff {seen names : List String} :
    firstRepeated? seen names = none ↔ names.Nodup ∧ ∀ n ∈ names, n ∉ seen := by
  induction names generalizing seen with
  | nil => simp [firstRepeated?]
  | cons n names ih =>
    rw [firstRepeated?, List.nodup_cons, List.forall_mem_cons]
    split
    · rename_i hmem
      simp [hmem]
    · rename_i hmem
      rw [ih]
      simp only [List.mem_cons, not_or]
      constructor
      · rintro ⟨hnodup, hseen⟩
        exact ⟨⟨fun hn => (hseen n hn).1 rfl, hnodup⟩, hmem, fun m hm => (hseen m hm).2⟩
      · rintro ⟨⟨hn, hnodup⟩, -, hseen⟩
        exact ⟨hnodup, fun m hm => ⟨fun heq => hn (heq ▸ hm), hseen m hm⟩⟩

end

end Arguments

namespace Signature

variable {α : Type} {s : Signature α} {args : List (Argument α)} {values : List α}

open Arguments

lemma bind_eq_ok_iff_bindFrom : s.bind args = .ok values ↔ (keywords args).Nodup ∧
    bindFrom s.default? 0 s.params (targetsFrom 0 args) = .ok (values, []) := by
  have hrepeated : firstRepeated? [] (keywords args) = none ↔ (keywords args).Nodup := by
    simp [firstRepeated?_eq_none_iff]
  rw [← hrepeated, Signature.bind]
  cases hfirst : firstRepeated? [] (keywords args) with
  | some n => exact ⟨fun h => (by cases h), fun h => (by cases h.1)⟩
  | none =>
    simp only [bind_eq_ok, Prod.exists, true_and]
    constructor
    · rintro ⟨vs, left, hbind, hleft⟩
      split at hleft
      · rename_i hempty
        obtain rfl : vs = values := Except.ok.inj hleft
        rw [hbind, List.isEmpty_iff.1 hempty]
      · cases hleft
    · exact fun h => ⟨values, [], h, rfl⟩

/-- Arguments fit parameters: no keyword is repeated, there are not more arguments by position than
parameters, every keyword names a parameter that has none by position, and a parameter that is
given neither way has a default. -/
structure Fits (s : Signature α) (args : List (Argument α)) : Prop where
  nodup : (keywords args).Nodup
  enough : (positionals args).length ≤ s.params.length
  known : ∀ n ∈ keywords args, ∃ k, s.params[k]? = some n ∧ (positionals args).length ≤ k
  supplied : ∀ (k : ℕ) p, s.params[k]? = some p → (positionals args).length ≤ k →
    p ∉ keywords args → ∃ a, s.default? p = some a

/-- What the parameter at a place gets: the argument at its position, else the one under its name,
else its default. -/
def valueAt? (s : Signature α) (args : List (Argument α)) (k : ℕ) (p : String) : Option α :=
  ((positionals args)[k]?.or ((named args).lookup p)).or (s.default? p)

lemma lookup_named_eq_none_iff {p : String} :
    (named args).lookup p = none ↔ p ∉ keywords args := by
  rw [List.lookup_eq_none_iff, keywords_eq, List.mem_map]
  simp only [bne_iff_ne, not_exists, not_and]
  exact ⟨fun h e he heq => h e he heq.symm, fun h e he heq => h e he heq.symm⟩

lemma gets_targetsFrom {k : ℕ} {p : String} {v : α} :
    Gets s.default? (targetsFrom 0 args) (0 + k) p v ↔
      ((positionals args).length ≤ k ∨ p ∉ keywords args) ∧ s.valueAt? args k p = some v := by
  rw [Gets, lookup_position, lookup_name, List.getElem?_eq_none_iff, lookup_named_eq_none_iff]
  rfl

lemma left_eq_nil_iff {left : List (Target × α)} (hnodup : (keywords args).Nodup)
    (h : bindFrom s.default? 0 s.params (targetsFrom 0 args) = .ok (values, left)) :
    left = [] ↔
      (positionals args).length ≤ s.params.length ∧ ∀ n ∈ keywords args, n ∈ s.params := by
  have hleft : ∀ t, t ∈ left.map Prod.fst ↔ t ∈ (targetsFrom 0 args).map Prod.fst ∧
      (∀ k < s.params.length, t ≠ .position (0 + k)) ∧ ∀ p ∈ s.params, t ≠ .name p := by
    intro t
    simp only [List.mem_map, mem_of_bindFrom h (nodup_targetsFrom hnodup)]
    constructor
    · rintro ⟨e, ⟨he, hfree⟩, rfl⟩
      exact ⟨⟨e, he, rfl⟩, hfree⟩
    · rintro ⟨⟨e, he, rfl⟩, hfree⟩
      exact ⟨e, ⟨he, hfree⟩, rfl⟩
  rw [← List.map_eq_nil_iff (f := Prod.fst), List.eq_nil_iff_forall_not_mem]
  simp only [hleft, mem_targetsFrom]
  constructor
  · intro hnone
    constructor
    · by_contra hmore
      exact hnone (.position (0 + s.params.length))
        ⟨.inl ⟨s.params.length, by omega, rfl⟩, fun k hk => by simp; omega, by simp⟩
    · intro n hn
      by_contra hunknown
      refine hnone (.name n) ⟨.inr ⟨n, hn, rfl⟩, by simp, ?_⟩
      rintro p hp heq
      exact hunknown (Target.name.inj heq ▸ hp)
  · rintro ⟨henough, hknown⟩ t ⟨⟨k, hk, rfl⟩ | ⟨n, hn, rfl⟩, hpositions, hnames⟩
    · exact hpositions k (by omega) rfl
    · exact hnames n (hknown n hn) rfl

/-- **What binding gives.** -/
theorem bind_eq_ok_iff (hparams : s.params.Nodup) : s.bind args = .ok values ↔
    Fits s args ∧ values.length = s.params.length ∧
      ∀ (k : ℕ) p, s.params[k]? = some p → values[k]? = s.valueAt? args k p := by
  rw [bind_eq_ok_iff_bindFrom]
  constructor
  · rintro ⟨hnodup, hbind⟩
    obtain ⟨hlength, hall⟩ := (exists_bindFrom_iff hparams).1 ⟨[], hbind⟩
    obtain ⟨henough, hknown⟩ := (left_eq_nil_iff hnodup hbind).1 rfl
    -- each parameter has got a value
    have hgets : ∀ (k : ℕ) p, s.params[k]? = some p → ∃ v, values[k]? = some v ∧
        ((positionals args).length ≤ k ∨ p ∉ keywords args) ∧ s.valueAt? args k p = some v := by
      intro k p hp
      have hk : k < values.length := hlength ▸ (List.getElem?_eq_some_iff.1 hp).1
      have hv := List.getElem?_eq_getElem hk
      exact ⟨_, hv, gets_targetsFrom.1 (hall k p _ hp hv)⟩
    refine ⟨⟨hnodup, henough, fun n hn => ?_, fun k p hp hk hnot => ?_⟩, hlength,
      fun k p hp => ?_⟩
    · obtain ⟨k, hk⟩ := List.mem_iff_getElem?.1 (hknown n hn)
      obtain ⟨v, -, honce, -⟩ := hgets k n hk
      exact ⟨k, hk, honce.resolve_right (not_not_intro hn)⟩
    · obtain ⟨v, -, -, hv⟩ := hgets k p hp
      rw [valueAt?, List.getElem?_eq_none hk, lookup_named_eq_none_iff.2 hnot] at hv
      exact ⟨v, hv⟩
    · obtain ⟨v, hv, -, hvalue⟩ := hgets k p hp
      rw [hv, hvalue]
  · rintro ⟨hfits, hlength, hvalues⟩
    refine ⟨hfits.nodup, ?_⟩
    have hall : AllGet s.default? (targetsFrom 0 args) 0 s.params values := by
      refine ⟨hlength, fun k p v hp hv => gets_targetsFrom.2 ⟨?_, hvalues k p hp ▸ hv⟩⟩
      rw [or_iff_not_imp_right, not_not]
      intro hkeyword
      -- the keyword names a parameter further on, and the name has one place only
      obtain ⟨k', hk', hle⟩ := hfits.known p hkeyword
      have hlt := (List.getElem?_eq_some_iff.1 hp).1
      have heq : k = k' := (List.getElem?_inj hlt hparams).1 (hp.trans hk'.symm)
      omega
    obtain ⟨left, hleft⟩ := (exists_bindFrom_iff hparams).2 hall
    have hnil : left = [] := (left_eq_nil_iff hfits.nodup hleft).2 ⟨hfits.enough, fun n hn => by
      obtain ⟨k, hk, -⟩ := hfits.known n hn
      exact List.mem_of_getElem? hk⟩
    rw [hleft, hnil]

lemma Fits.exists_valueAt? (h : Fits s args) {k : ℕ} {p : String} (hp : s.params[k]? = some p) :
    ∃ v, s.valueAt? args k p = some v := by
  rw [← Option.isSome_iff_exists, valueAt?, Option.isSome_or, Option.isSome_or, Bool.or_eq_true,
    Bool.or_eq_true]
  by_cases hk : (positionals args).length ≤ k
  · by_cases hkeyword : p ∈ keywords args
    · refine .inl (.inr ?_)
      rw [Option.isSome_iff_ne_none, ne_eq, lookup_named_eq_none_iff]
      exact not_not_intro hkeyword
    · exact .inr (Option.isSome_iff_exists.2 (h.supplied k p hp hk hkeyword))
  · exact .inl (.inl (by simp; omega))

lemma Fits.exists_values (h : Fits s args) : ∃ values : List α,
    values.length = s.params.length ∧
      ∀ (k : ℕ) p, s.params[k]? = some p → values[k]? = s.valueAt? args k p := by
  have hsome : ∀ k : Fin s.params.length, (s.valueAt? args k s.params[k]).isSome = true := fun k =>
    Option.isSome_iff_exists.2 (h.exists_valueAt? (List.getElem?_eq_getElem k.isLt))
  refine ⟨List.ofFn fun k => (s.valueAt? args k s.params[k]).get (hsome k), by simp, ?_⟩
  intro k p hp
  obtain ⟨hk, rfl⟩ := List.getElem?_eq_some_iff.1 hp
  rw [List.getElem?_ofFn, dif_pos hk, Option.some_get]
  rfl

/-! ### The order of keywords -/

section

variable {args' : List (Argument α)}

lemma lookup_eq_some_iff_mem {l : List (String × α)} (h : (l.map Prod.fst).Nodup) {n : String}
    {a : α} : l.lookup n = some a ↔ (n, a) ∈ l := by
  induction l with
  | nil => simp
  | cons e l ih =>
    obtain ⟨m, b⟩ := e
    rw [List.map_cons, List.nodup_cons] at h
    rw [List.lookup_cons]
    by_cases hn : n = m
    · subst hn
      have hnot : (n, a) ∉ l := fun hmem => h.1 (List.mem_map.2 ⟨_, hmem, rfl⟩)
      simp [hnot, eq_comm]
    · simp [beq_false_of_ne hn, hn, ih h.2]

lemma lookup_perm {l l' : List (String × α)} (h : (l.map Prod.fst).Nodup) (hperm : l.Perm l')
    (n : String) : l'.lookup n = l.lookup n := by
  have h' : (l'.map Prod.fst).Nodup := (hperm.map Prod.fst).nodup_iff.1 h
  apply Option.ext
  intro a
  rw [lookup_eq_some_iff_mem h, lookup_eq_some_iff_mem h', hperm.mem_iff]

lemma Fits.of_perm (h : Fits s args) (hpositionals : positionals args' = positionals args)
    (hnamed : (named args).Perm (named args')) : Fits s args' := by
  have hperm : (keywords args).Perm (keywords args') := by
    rw [keywords_eq, keywords_eq]
    exact hnamed.map Prod.fst
  constructor
  · exact hperm.nodup_iff.1 h.nodup
  · rw [hpositionals]
    exact h.enough
  · intro n hn
    rw [hpositionals]
    exact h.known n (hperm.mem_iff.2 hn)
  · intro k p hp hk hnot
    rw [hpositionals] at hk
    exact h.supplied k p hp hk fun hmem => hnot (hperm.mem_iff.1 hmem)

lemma bind_of_perm (hparams : s.params.Nodup) (hpositionals : positionals args' = positionals args)
    (hnamed : (named args).Perm (named args')) (h : s.bind args = .ok values) :
    s.bind args' = .ok values := by
  rw [bind_eq_ok_iff hparams] at h ⊢
  obtain ⟨hfits, hlength, hvalues⟩ := h
  have hnodup : ((named args).map Prod.fst).Nodup := keywords_eq args ▸ hfits.nodup
  refine ⟨hfits.of_perm hpositionals hnamed, hlength, fun k p hp => ?_⟩
  rw [hvalues k p hp, valueAt?, valueAt?, hpositionals, lookup_perm hnodup hnamed]

end

/-- **Arguments are bound exactly.** Take any parameters of distinct names with any defaults, and
any arguments.

They can be bound exactly if they fit: no keyword is repeated, there are not more arguments by
position than parameters, every keyword names a parameter that has none by position, and a parameter
that is given neither way has a default. There is then one value for each parameter, in order: the
argument at its position, else the one under its name, else its default. So the same values are
bound if the keywords come in another order or stand elsewhere among the arguments by position. -/
theorem arguments_bound_exactly {α : Type} {s : Signature α} (hparams : s.params.Nodup)
    (args : List (Argument α)) :
    ((∃ values, s.bind args = .ok values) ↔ Fits s args) ∧
    (∀ values, s.bind args = .ok values → values.length = s.params.length ∧
      ∀ (k : ℕ) p, s.params[k]? = some p → values[k]? =
        ((positionals args)[k]?.or ((named args).lookup p)).or (s.default? p)) ∧
    (∀ args', positionals args' = positionals args → (named args').Perm (named args) →
      ∀ values, s.bind args' = .ok values ↔ s.bind args = .ok values) := by
  refine ⟨⟨?_, ?_⟩, ?_, ?_⟩
  · rintro ⟨values, hvalues⟩
    exact ((bind_eq_ok_iff hparams).1 hvalues).1
  · intro hfits
    obtain ⟨values, hvalues⟩ := hfits.exists_values
    exact ⟨values, (bind_eq_ok_iff hparams).2 ⟨hfits, hvalues⟩⟩
  · intro values hvalues
    exact ((bind_eq_ok_iff hparams).1 hvalues).2
  · intro args' hpositionals hnamed values
    exact ⟨bind_of_perm hparams hpositionals.symm hnamed,
      bind_of_perm hparams hpositionals hnamed.symm⟩

/-- Keywords before and behind an argument by position, and a default. -/
theorem arguments_bound_exactly_mixed :
    let s : Signature ℕ := { params := ["a", "b", "c", "d"], defaults := [("c", 30), ("b", 20)] }
    let args : List (Argument ℕ) := [.keyword "d" 4, .positional 1, .keyword "b" 2]
    let args' : List (Argument ℕ) := [.keyword "b" 2, .keyword "d" 4, .positional 1]
    s.params.Nodup ∧ s.bind args = .ok [1, 2, 30, 4] ∧ Fits s args ∧
    s.bind args' = .ok [1, 2, 30, 4] := by
  intro s args args'
  have hparams : s.params.Nodup := by decide
  have hbind : s.bind args = .ok [1, 2, 30, 4] := by decide +kernel
  obtain ⟨hfits, -, hperm⟩ := arguments_bound_exactly hparams args
  have hnamed : (named args').Perm (named args) := List.Perm.swap _ _ _
  exact ⟨hparams, hbind, hfits.1 ⟨_, hbind⟩, (hperm args' rfl hnamed _).2 hbind⟩

end Signature

end TimeMarch
