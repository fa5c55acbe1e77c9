import Mathlib.Data.List.Induction
import TimeMarch.Proofs.DependencyOrder
import TimeMarch.Proofs.FreshNames
import TimeMarch.Proofs.Scopes

/-!
# Symbol Tables Keep Names Apart

A natural form may be what another name was sanitised to, or a sanitised form with a number behind
it that another name has by nature. All the same no two names of a table share an identifier,
because every new identifier is compared with all that have been given out and with the reserved
words. Here this is followed along any row of requests, together with what becomes of the slots: the
table has the first names that were asked for, as many as fit, in the order in which they came.
-/

namespace TimeMarch

/-! ### Legal identifiers -/

namespace Name

lemma isLegalList_append {cs ds : List Char} (hcs : isLegalList cs = true)
    (hds : ∀ c ∈ ds, isLetterOrDigit c = true) : isLegalList (cs ++ ds) = true := by
  cases cs with
  | nil => simp [isLegalList] at hcs
  | cons c cs =>
    simp only [isLegalList, Bool.and_eq_true, List.all_eq_true] at hcs
    simp only [List.cons_append, isLegalList, Bool.and_eq_true, List.all_eq_true, List.mem_append]
    exact ⟨hcs.1, fun d hd => hd.elim (hcs.2 d) (hds d)⟩

lemma isLegal_numbered {stem : String} (h : isLegal stem = true) (k : ℕ) :
    isLegal (stem ++ toString k) = true := by
  rw [isLegal, String.toList_append]
  refine isLegalList_append h fun c hc => ?_
  rw [Nat.toString_eq_repr, Nat.toList_repr] at hc
  have hdigit : c.isDigit = true := Nat.isDigit_of_mem_toDigits (by omega) (by omega) hc
  simp [isLetterOrDigit, Char.isAlphanum, hdigit]

lemma isLegalList_sanitizeList (cs : List Char) : isLegalList (sanitizeList cs) = true := by
  have hall : ∀ c ∈ cs.map fun c => if c.isAlphanum then c else '_',
      c.isAlphanum = true ∨ c = '_' := by
    intro c hc
    obtain ⟨d, -, rfl⟩ := List.mem_map.1 hc
    split
    · exact .inl ‹_›
    · exact .inr rfl
  have hrest : ∀ {c}, c.isAlphanum = true ∨ c = '_' → isLetterOrDigit c = true := by
    intro c hc
    simpa [isLetterOrDigit] using hc
  unfold sanitizeList
  split
  · rfl
  · rename_i c rest heq
    rw [heq, List.forall_mem_cons] at hall
    have hletters : rest.all isLetterOrDigit = true :=
      List.all_eq_true.2 fun d hd => hrest (hall.2 d hd)
    split
    · -- the digit is no longer the first character
      simp [isLegalList, isLetter, hrest hall.1, hletters]
    · rename_i hdigit
      have hletter : isLetter c = true := by
        rcases hall.1 with hc | rfl
        · rw [Char.isAlphanum, Bool.or_eq_true, or_iff_left hdigit] at hc
          rw [isLetter, hc, Bool.true_or]
        · rfl
      simp [isLegalList, hletter, hletters]

lemma isLegal_sanitize (name : String) : isLegal (sanitize name) = true := by
  rw [isLegal, sanitize, String.toList_ofList]
  exact isLegalList_sanitizeList _

lemma isLegal_fresh (taken : String → Bool) (bound : ℕ) {stem : String}
    (h : isLegal stem = true) : isLegal (fresh taken bound stem) = true := by
  unfold fresh
  split
  · obtain ⟨k, hk, -⟩ := probe_spec taken stem 0 bound
    rw [hk]
    exact isLegal_numbered h k
  · exact h

end Name

namespace SymbolTable

lemma length_le_of_taken {used reserved : Std.TreeSet String} {l : List String} (hl : l.Nodup)
    (htaken : ∀ n ∈ l, (used.contains n || reserved.contains n) = true) :
    l.length ≤ used.size + reserved.size := by
  have hsub : l ⊆ used.toList ++ reserved.toList := by
    intro n hn
    simpa using htaken n hn
  have hlength := (List.subperm_of_subset hl hsub).length_le
  rwa [List.length_append, Std.TreeSet.length_toList, Std.TreeSet.length_toList] at hlength

/-- **A new identifier is legal and free.** -/
theorem newIdent_spec (reserved used : Std.TreeSet String) (name : String) :
    Name.isLegal (newIdent reserved used name) = true ∧ newIdent reserved used name ∉ used ∧
      newIdent reserved used name ∉ reserved := by
  have hfree : ∀ n, (used.contains n || reserved.contains n) = false ↔ n ∉ used ∧ n ∉ reserved := by
    intro n
    rw [Bool.or_eq_false_iff, ← Bool.not_eq_true, ← Bool.not_eq_true,
      Std.TreeSet.contains_iff_mem, Std.TreeSet.contains_iff_mem]
  simp only [newIdent]
  split
  · rename_i hnatural
    rw [Bool.and_eq_true, Bool.not_eq_true'] at hnatural
    exact ⟨hnatural.1, (hfree _).1 hnatural.2⟩
  · refine ⟨Name.isLegal_fresh _ _ (Name.isLegal_sanitize _), (hfree _).1 ?_⟩
    exact Name.taken_fresh _ _ fun l hl => length_le_of_taken hl

/-! ### What every request keeps -/

def idents (t : SymbolTable) : List String := t.toList.map Prod.snd

/-- A table that has not grown too long and whose identifiers are as they should be. -/
structure Sound (reserved : Std.TreeSet String) (t : SymbolTable) : Prop where
  size_le : t.size ≤ tableLimit
  mem_used : ∀ x, x ∈ t.used ↔ x ∈ t.idents
  nodup : t.idents.Nodup
  legal : ∀ x ∈ t.idents, Name.isLegal x = true
  free : ∀ x ∈ t.idents, x ∉ reserved

variable {reserved : Std.TreeSet String} {t : SymbolTable}

variable (reserved) in
lemma Sound.empty : Sound reserved {} where
  size_le := Nat.zero_le _
  mem_used x := by simp [idents, toList]
  nodup := List.nodup_nil
  legal := by simp [idents, toList]
  free := by simp [idents, toList]

lemma idents_push {x ident : String} (h : t.symbols.place? x = none) (used : Std.TreeSet String) :
    idents ⟨t.symbols.push x ident h, used⟩ = t.idents ++ [ident] := by
  simp [idents, toList]

lemma Sound.push (h : t.Sound reserved) {x ident : String} (hx : t.symbols.place? x = none)
    (hsize : t.size < tableLimit) (hlegal : Name.isLegal ident = true) (hunused : ident ∉ t.used)
    (hfree : ident ∉ reserved) :
    Sound reserved ⟨t.symbols.push x ident hx, t.used.insert ident⟩ where
  size_le := by
    rw [size, ← Roster.length_keys, Roster.keys_push, List.length_append, Roster.length_keys]
    exact hsize
  mem_used y := by
    rw [idents_push, List.mem_append, List.mem_singleton, ← h.mem_used, Std.TreeSet.mem_insert,
      Std.LawfulEqCmp.compare_eq_iff_eq, or_comm, eq_comm]
  nodup := by
    rw [idents_push, List.nodup_append]
    refine ⟨h.nodup, List.nodup_singleton _, fun y hy z hz => ?_⟩
    rw [List.mem_singleton.1 hz]
    rintro rfl
    exact hunused ((h.mem_used _).2 hy)
  legal := by
    rw [idents_push]
    exact List.forall_mem_append.2 ⟨h.legal, List.forall_mem_singleton.2 hlegal⟩
  free := by
    rw [idents_push]
    exact List.forall_mem_append.2 ⟨h.free, List.forall_mem_singleton.2 hfree⟩

lemma Sound.request (h : t.Sound reserved) (x : String) :
    (t.request reserved x).2.Sound reserved := by
  cases hslot : t.slot? x with
  | some i =>
    rw [request_of_slot? hslot]
    exact h
  | none =>
    rw [request_of_slot?_eq_none hslot]
    split
    · obtain ⟨hlegal, hunused, hfree⟩ := newIdent_spec reserved t.used x
      exact h.push hslot ‹_› hlegal hunused hfree
    · exact h

/-! ### Rows of requests -/

/-- The table after a row of requests, each of which is made whatever became of the others. -/
def requestAll (reserved : Std.TreeSet String) (names : List String) (t : SymbolTable) :
    SymbolTable :=
  names.foldl (fun t x => (t.request reserved x).2) t

lemma requestAll_append_singleton (names : List String) (x : String) :
    requestAll reserved (names ++ [x]) t =
      ((requestAll reserved names t).request reserved x).2 := by
  simp [requestAll]

theorem Sound.requestAll (h : t.Sound reserved) (names : List String) :
    (SymbolTable.requestAll reserved names t).Sound reserved := by
  induction names generalizing t with
  | nil => exact h
  | cons x names ih => exact ih (h.request x)

lemma prefix_requestAll (reserved : Std.TreeSet String) (names : List String) (t : SymbolTable) :
    t.toList <+: (requestAll reserved names t).toList := by
  induction names generalizing t with
  | nil => exact List.prefix_rfl
  | cons x names ih => exact (prefix_request reserved x t).trans (ih _)

lemma slot?_eq_some_iff {x : String} {i : ℕ} :
    t.slot? x = some i ↔ t.symbols.keys[i]? = some x :=
  Roster.place?_eq_some_iff_getElem? _ _ _

lemma slot?_eq_none_iff {x : String} : t.slot? x = none ↔ x ∉ t.symbols.keys :=
  Roster.place?_eq_none_iff _ _

lemma length_keys : t.symbols.keys.length = t.size := Roster.length_keys _

lemma keys_request (reserved : Std.TreeSet String) (x : String) (t : SymbolTable) :
    (t.request reserved x).2.symbols.keys =
      if x ∉ t.symbols.keys ∧ t.size < tableLimit then t.symbols.keys ++ [x]
      else t.symbols.keys := by
  cases hslot : t.slot? x with
  | some i =>
    have hmem : x ∈ t.symbols.keys := List.mem_of_getElem? (slot?_eq_some_iff.1 hslot)
    rw [request_of_slot? hslot, if_neg fun h => h.1 hmem]
  | none =>
    have hnew := slot?_eq_none_iff.1 hslot
    rw [request_of_slot?_eq_none hslot]
    by_cases hsize : t.size < tableLimit
    · rw [if_pos hsize, if_pos ⟨hnew, hsize⟩]
      exact Roster.keys_push _ _ _ hslot
    · rw [if_neg hsize, if_neg fun h => hsize h.2]

lemma request_fst (reserved : Std.TreeSet String) (x : String) (t : SymbolTable) :
    (t.request reserved x).1 = operand .symbol ((t.symbols.keys ++ [x]).idxOf x) := by
  cases hslot : t.slot? x with
  | some i =>
    obtain ⟨hi, hx⟩ := List.getElem?_eq_some_iff.1 (slot?_eq_some_iff.1 hslot)
    rw [request_of_slot? hslot, List.idxOf_append_of_mem (List.mem_of_getElem hx), ← hx,
      (Roster.nodup_keys _).idxOf_getElem]
  | none =>
    have hnew := slot?_eq_none_iff.1 hslot
    rw [request_of_slot?_eq_none hslot, List.idxOf_append_of_notMem hnew, length_keys,
      List.idxOf_cons_self, Nat.add_zero]
    by_cases hsize : t.size < tableLimit
    · simp [operand, hsize]
    · simp [operand, hsize]

lemma eraseDups_append_singleton (l : List String) (x : String) :
    (l ++ [x]).eraseDups = if x ∈ l then l.eraseDups else l.eraseDups ++ [x] := by
  rw [List.eraseDups_append]
  by_cases hx : x ∈ l
  · simp [List.removeAll, hx]
  · simp [List.removeAll, hx, List.eraseDups_cons]

/-- **A table has the first names that were asked for**, as many as fit. -/
theorem keys_requestAll (reserved : Std.TreeSet String) (names : List String) :
    (requestAll reserved names {}).symbols.keys = names.eraseDups.take tableLimit := by
  induction names using List.reverseRecOn with
  | nil => rfl
  | append_singleton names x ih =>
    rw [requestAll_append_singleton, keys_request, ← length_keys, ih, List.length_take,
      eraseDups_append_singleton]
    by_cases hroom : names.eraseDups.length < tableLimit
    · have htake : names.eraseDups.take tableLimit = names.eraseDups :=
        List.take_of_length_le (Nat.le_of_lt hroom)
      have hmin : min tableLimit names.eraseDups.length < tableLimit := by omega
      rw [htake]
      by_cases hx : x ∈ names
      · rw [if_neg fun h => h.1 (List.mem_eraseDups.2 hx), if_pos hx, htake]
      · rw [if_pos ⟨fun h => hx (List.mem_eraseDups.1 h), hmin⟩, if_neg hx,
          List.take_of_length_le]
        rw [List.length_append, List.length_singleton]
        exact hroom
    · -- the table is full, and what comes later is not seen
      have hmin : ¬min tableLimit names.eraseDups.length < tableLimit := by omega
      rw [if_neg fun h => hmin h.2]
      split
      · rfl
      · rw [List.take_append_of_le_length (Nat.le_of_not_lt hroom)]

lemma operand_congr {table : Table} {i j : ℕ} (h : i = j ∨ tableLimit ≤ i ∧ tableLimit ≤ j) :
    operand table i = operand table j := by
  obtain rfl | ⟨hi, hj⟩ := h
  · rfl
  · rw [operand, operand, if_neg (Nat.not_lt.2 hi), if_neg (Nat.not_lt.2 hj)]

/-- **The answer to a request** is the place of the name among all that were asked for. -/
theorem request_requestAll_fst (reserved : Std.TreeSet String) (names : List String) (x : String) :
    ((requestAll reserved names {}).request reserved x).1 =
      operand .symbol ((names ++ [x]).eraseDups.idxOf x) := by
  rw [request_fst, keys_requestAll, eraseDups_append_singleton]
  apply operand_congr
  by_cases hx : x ∈ names
  · rw [if_pos hx]
    have hmem := List.mem_eraseDups.2 hx
    by_cases htake : x ∈ names.eraseDups.take tableLimit
    · left
      conv_rhs => rw [← List.take_append_drop tableLimit names.eraseDups]
      rw [List.idxOf_append_of_mem htake, List.idxOf_append_of_mem htake]
    · right
      have hlt : ¬names.eraseDups.idxOf x < tableLimit :=
        fun h => htake ((List.mem_take_iff_idxOf_lt hmem).2 h)
      have hlength := List.idxOf_lt_length_of_mem hmem
      rw [List.idxOf_append_of_notMem htake, List.length_take]
      omega
  · rw [if_neg hx]
    have hnew : x ∉ names.eraseDups := fun h => hx (List.mem_eraseDups.1 h)
    have hnew' : x ∉ names.eraseDups.take tableLimit := fun h => hnew (List.mem_of_mem_take h)
    rw [List.idxOf_append_of_notMem hnew, List.idxOf_append_of_notMem hnew', List.length_take]
    omega

/-! ### The view by slots -/

lemma getElem?_idents {i : ℕ} (h : i < t.size) : t.idents[i]? = some (t.ident i) := by
  have hi : i < t.symbols.entries.size := h
  simp [idents, toList, Roster.toList, ident, Array.getElem?_eq_getElem hi]

lemma ident_mem_idents {i : ℕ} (h : i < t.size) : t.ident i ∈ t.idents :=
  List.mem_of_getElem? (getElem?_idents h)

lemma Sound.ident_inj (h : t.Sound reserved) {i j : ℕ} (hi : i < t.size) (hj : j < t.size)
    (heq : t.ident i = t.ident j) : i = j := by
  have hget := getElem?_idents hi
  rw [heq, ← getElem?_idents hj] at hget
  have hlength : i < t.idents.length := (List.getElem?_eq_some_iff.1 (getElem?_idents hi)).1
  exact (List.getElem?_inj hlength h.nodup).1 hget

lemma ident_of_isPrefix {u : SymbolTable} {i : ℕ} (h : t.toList <+: u.toList) (hi : i < t.size) :
    u.ident i = t.ident i := by
  have hentry : t.toList[i]? = some t.symbols.entries[i] := by
    rw [toList, Roster.toList, Array.getElem?_toList]
    exact Array.getElem?_eq_getElem hi
  have hentry' := getElem?_of_isPrefix h hentry
  rw [toList, Roster.toList, Array.getElem?_toList] at hentry hentry'
  rw [ident, ident, hentry, hentry']

lemma toNat_toUInt16 {i : ℕ} (hsize : t.size ≤ tableLimit) (h : i < t.size) :
    i.toUInt16.toNat = i := by
  have hlimit : tableLimit < UInt16.size := by decide
  exact UInt16.toNat_ofNat_of_lt' (by omega)

lemma slot?_name {i : ℕ} (h : i < t.size) : t.slot? (t.name i) = some i := by
  obtain ⟨x, hx, -⟩ := exists_slot? h
  rw [name_of_slot? hx]
  exact hx

/-- What is promised of a table from which the names in a list were asked, one after the other. -/
structure KeepsApart (reserved : Std.TreeSet String) (names : List String) (t : SymbolTable) :
    Prop where
  size_le : t.size ≤ tableLimit
  legal : ∀ i < t.size, Name.isLegal (t.ident i) = true
  free : ∀ i < t.size, t.ident i ∉ reserved
  apart : ∀ i < t.size, ∀ j < t.size, t.ident i = t.ident j → i = j
  /-- The slots are counted up in the order of first mention, as long as there is one to give. -/
  slots : ∀ x i, t.slot? x = some i ↔ (names.eraseDups.take tableLimit)[i]? = some x
  /-- The name is found in the slot, also when the slot is kept in sixteen bits. -/
  name_slot : ∀ x i, t.slot? x = some i → i.toUInt16.toNat = i ∧ t.name i.toUInt16.toNat = x
  slot_name : ∀ i < t.size, t.slot? (t.name i) = some i
  /-- A name is answered by its place among all that were asked for. -/
  answer : ∀ x, (t.request reserved x).1 = operand .symbol ((names ++ [x]).eraseDups.idxOf x)
  known : ∀ x i, t.slot? x = some i → t.request reserved x = (.ok i, t)
  refused : ∀ x e u, t.request reserved x = (.error e, u) →
    e = .tableOverflow .symbol ∧ t.size = tableLimit ∧ t.slot? x = none ∧ u = t
  later : ∀ more x i, t.slot? x = some i →
    (requestAll reserved more t).slot? x = some i ∧
      (requestAll reserved more t).ident i = t.ident i

lemma request_of_slot?_of_size_le {x : String} {i : ℕ} (hsize : t.size ≤ tableLimit)
    (h : t.slot? x = some i) : t.request reserved x = (.ok i, t) := by
  rw [request_of_slot? h, operand, if_pos (Nat.lt_of_lt_of_le (slot?_lt h) hsize)]

lemma request_eq_error (h : t.Sound reserved) {x : String} {e : CodeError} {u : SymbolTable}
    (hrequest : t.request reserved x = (.error e, u)) :
    e = .tableOverflow .symbol ∧ t.size = tableLimit ∧ t.slot? x = none ∧ u = t := by
  cases hslot : t.slot? x with
  | some i =>
    rw [request_of_slot?_of_size_le h.size_le hslot] at hrequest
    cases hrequest
  | none =>
    rw [request_of_slot?_eq_none hslot] at hrequest
    split at hrequest
    · cases hrequest
    · cases hrequest
      have := h.size_le
      exact ⟨rfl, by omega, rfl, rfl⟩

/-- **Symbol tables never confuse two names**, whatever is asked of them. -/
theorem requestAll_keepsApart (reserved : Std.TreeSet String) (names : List String) :
    KeepsApart reserved names (requestAll reserved names {}) :=
  have h := (Sound.empty reserved).requestAll names
  { size_le := h.size_le
    legal := fun i hi => h.legal _ (ident_mem_idents hi)
    free := fun i hi => h.free _ (ident_mem_idents hi)
    apart := fun i hi j hj heq => h.ident_inj hi hj heq
    slots := fun x i => by rw [slot?_eq_some_iff, keys_requestAll]
    name_slot := fun x i hi => by
      have hnat := toNat_toUInt16 h.size_le (slot?_lt hi)
      exact ⟨hnat, by rw [hnat, name_of_slot? hi]⟩
    slot_name := fun i hi => slot?_name hi
    answer := request_requestAll_fst reserved names
    known := fun x i hi => request_of_slot?_of_size_le h.size_le hi
    refused := fun x e u hrequest => request_eq_error h hrequest
    later := fun more x i hi => by
      have hgrown := prefix_requestAll reserved more (requestAll reserved names {})
      exact ⟨Le.of_isPrefix hgrown x i hi, ident_of_isPrefix hgrown (slot?_lt hi)⟩ }

example : (requestAll {"y_"} ["y^", "y*", "y_0", "y^", "y"] {}).toList =
    [("y^", "y_0"), ("y*", "y_1"), ("y_0", "y_00"), ("y", "y")] := by
  decide +kernel

end SymbolTable

end TimeMarch
