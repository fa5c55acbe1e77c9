import Mathlib.Tactic.Common
import TimeMarch.Code.Lowering
import TimeMarch.Proofs.Rosters
import TimeMarch.Proofs.Success

/-!
# Scopes That Only Grow

Lowering adds names and constants to the tables of a scope and never moves what is there. So what an
operand refers to when it is made, it refers to for good. `Lowering.Ensures` says this of a
computation once and for all: its result is described in every scope that is larger than the one it
ends with, and what is known of the parts of a computation is then known of the whole.
-/

namespace TimeMarch

lemma operand_eq_ok {table : Table} {i j : ℕ} :
    operand table i = .ok j ↔ i < tableLimit ∧ i = j := by
  unfold operand
  split
  · simp_all
  · exact ⟨fun h => (by cases h), fun h => absurd h.1 ‹_›⟩

namespace SymbolTable

def Le (t u : SymbolTable) : Prop :=
  ∀ name i, t.slot? name = some i → u.slot? name = some i

lemma Le.refl (t : SymbolTable) : t.Le t := fun _ _ h => h

lemma Le.trans {t u v : SymbolTable} (h : t.Le u) (h' : u.Le v) : t.Le v :=
  fun name i hi => h' name i (h name i hi)

lemma slot?_lt {t : SymbolTable} {x : String} {i : ℕ} (h : t.slot? x = some i) : i < t.size :=
  Roster.place?_lt h

lemma name_of_slot? {t : SymbolTable} {x : String} {i : ℕ} (h : t.slot? x = some i) :
    t.name i = x := by
  have hi := (t.symbols.places_spec x i).1 h
  rw [name, hi, Option.getD_some]

lemma slot?_inj {t : SymbolTable} {x y : String} {i : ℕ} (hx : t.slot? x = some i)
    (hy : t.slot? y = some i) : x = y :=
  (name_of_slot? hx).symm.trans (name_of_slot? hy)

lemma exists_slot? {t : SymbolTable} {i : ℕ} (h : i < t.size) :
    ∃ x, t.slot? x = some i ∧ x ∈ t.symbols.keys := by
  have hi : i < t.symbols.keys.length := by rwa [Roster.length_keys]
  exact ⟨t.symbols.keys[i], (Roster.place?_eq_some_iff_getElem? _ _ _).2
    (List.getElem?_eq_getElem hi), List.getElem_mem hi⟩

section

variable {reserved : Std.TreeSet String} {x : String} {t u : SymbolTable} {i : ℕ}

lemma request_of_slot? (h : t.slot? x = some i) :
    t.request reserved x = (operand .symbol i, t) := by
  obtain ⟨symbols, used⟩ := t
  simp only [request]
  split
  · rename_i slot hslot
    obtain rfl : slot = i := Option.some.inj (hslot.symm.trans h)
    rfl
  · rename_i hnone
    exact absurd (hnone.symm.trans h) (by simp)

lemma request_of_slot?_eq_none (h : t.slot? x = none) :
    t.request reserved x =
      if t.size < tableLimit then
        (.ok t.size, ⟨t.symbols.push x (newIdent reserved t.used x) h,
          t.used.insert (newIdent reserved t.used x)⟩)
      else (.error (.tableOverflow .symbol), t) := by
  obtain ⟨symbols, used⟩ := t
  simp only [request]
  split
  · rename_i slot hslot
    exact absurd (h.symm.trans hslot) (by simp)
  · by_cases hsize : symbols.size < tableLimit
    · simp [operand, size, hsize]
    · simp [operand, size, hsize]

lemma intern_eq_ok_iff : t.intern reserved x = .ok (i, u) ↔ t.request reserved x = (.ok i, u) := by
  unfold intern
  split
  · rename_i slot v hrequest
    rw [hrequest]
    simp
  · rename_i e v hrequest
    rw [hrequest]
    simp

lemma prefix_request (reserved : Std.TreeSet String) (x : String) (t : SymbolTable) :
    t.toList <+: (t.request reserved x).2.toList := by
  cases hslot : t.slot? x with
  | some i =>
    refine ⟨[], ?_⟩
    rw [request_of_slot? hslot, List.append_nil]
  | none =>
    rw [request_of_slot?_eq_none hslot]
    split
    · exact ⟨_, (Roster.toList_push _ _ _ hslot).symm⟩
    · exact List.prefix_rfl

lemma getElem?_of_isPrefix (h : t.toList <+: u.toList) {e : String × String}
    (he : t.toList[i]? = some e) : u.toList[i]? = some e := by
  obtain ⟨more, hmore⟩ := h
  rw [← hmore, List.getElem?_append_left (List.getElem?_eq_some_iff.1 he).1]
  exact he

lemma Le.of_isPrefix (h : t.toList <+: u.toList) : t.Le u := by
  intro y k hk
  obtain ⟨a, ha⟩ := (Roster.place?_eq_some_iff _ _ _).1 hk
  exact (Roster.place?_eq_some_iff _ _ _).2 ⟨a, getElem?_of_isPrefix h ha⟩

lemma intern_eq_ok (h : t.intern reserved x = .ok (i, u)) : t.Le u ∧ u.slot? x = some i := by
  rw [intern_eq_ok_iff] at h
  have hle := prefix_request reserved x t
  rw [h] at hle
  refine ⟨.of_isPrefix hle, ?_⟩
  cases hslot : t.slot? x with
  | some j =>
    rw [request_of_slot? hslot, Prod.mk.injEq, operand_eq_ok] at h
    obtain ⟨⟨-, rfl⟩, rfl⟩ := h
    exact hslot
  | none =>
    rw [request_of_slot?_eq_none hslot] at h
    split at h
    · cases h
      exact (Roster.place?_push _ _ _ hslot x).trans (if_pos rfl)
    · cases h

end

end SymbolTable

structure Tables.Le (a b : Tables) : Prop where
  persistent : a.persistent.Le b.persistent
  functions : a.functions.Le b.functions
  labels : a.labels.Le b.labels
  literals : ∀ (i : ℕ) v, a.literals[i]? = some v → b.literals[i]? = some v
  keywordSets : ∀ (i : ℕ) names, a.keywordSets[i]? = some names → b.keywordSets[i]? = some names
  raises : ∀ (i : ℕ) r, a.raises[i]? = some r → b.raises[i]? = some r

lemma Tables.Le.refl (a : Tables) : a.Le a :=
  ⟨.refl _, .refl _, .refl _, fun _ _ h => h, fun _ _ h => h, fun _ _ h => h⟩

lemma Tables.Le.trans {a b c : Tables} (h : a.Le b) (h' : b.Le c) : a.Le c :=
  ⟨h.persistent.trans h'.persistent, h.functions.trans h'.functions, h.labels.trans h'.labels,
    fun i v hi => h'.literals i v (h.literals i v hi),
    fun i v hi => h'.keywordSets i v (h.keywordSets i v hi),
    fun i v hi => h'.raises i v (h.raises i v hi)⟩

structure Scope.Le (a b : Scope) : Prop extends Tables.Le a.toTables b.toTables where
  locals : a.locals.Le b.locals

lemma Scope.Le.refl (a : Scope) : a.Le a := ⟨.refl _, .refl _⟩

lemma Scope.Le.trans {a b c : Scope} (h : a.Le b) (h' : b.Le c) : a.Le c :=
  ⟨h.toLe.trans h'.toLe, h.locals.trans h'.locals⟩

lemma Scope.Le.table {a b : Scope} (h : a.Le b) (family : Family) :
    (a.table family).Le (b.table family) := by
  cases family with
  | persistent => exact h.persistent
  | ofState => exact h.locals
  | function => exact h.functions
  | label => exact h.labels

lemma Scope.Le.setTable {a : Scope} {t : SymbolTable} {family : Family}
    (h : (a.table family).Le t) : a.Le (a.setTable t family) := by
  have hself := Scope.Le.refl a
  cases family with
  | persistent => exact { hself with persistent := h }
  | ofState => exact { hself with locals := h }
  | function => exact { hself with functions := h }
  | label => exact { hself with labels := h }

def Scope.slot? (g : Scope) (x : String) : Option Lowering.Slot :=
  if (Name.space x).isPersistent then (g.persistent.slot? x).map .persistent
  else (g.locals.slot? x).map .ofState

def pooled {α : Type} [BEq α] (entries : Array α) (a : α) : α :=
  if a == a then (entries.find? (· == a)).getD a else a

/-- What a literal reads as in code: the table holds only one of those that are equal. -/
def Tables.read (t : Tables) (v : Value) : Value := pooled t.literals v

lemma Tables.read_eq_self {t : Tables} {literals : List Value}
    (hliterals : ∀ u ∈ literals, ∀ v ∈ literals, (u == v) = true → u = v) {v : Value}
    (hv : v ∈ literals) (hread : t.read v ∈ literals) : t.read v = v := by
  by_cases hself : (v == v) = true
  · cases hfind : t.literals.find? (· == v) with
    | none => rw [read, pooled, if_pos hself, hfind, Option.getD_none]
    | some u =>
      have hu : t.read v = u := by rw [read, pooled, if_pos hself, hfind, Option.getD_some]
      rw [hu] at hread ⊢
      have heq := Array.find?_some hfind
      exact hliterals u hread v hv heq
  · rw [read, pooled, if_neg hself]

namespace Lowering

section

variable {α β : Type} {literals : List Value} {x : Lowering α} {f : α → Lowering β}
  {P : Scope → α → Prop} {Q : Scope → β → Prop}

/-- Whenever `x` succeeds, starting with literals of the given list, the scope has grown by such
literals at most, and the result is as `P` says in every scope that is larger still. -/
def Ensures (literals : List Value) (x : Lowering α) (P : Scope → α → Prop) : Prop :=
  ∀ scope a scope', x scope = .ok (a, scope') → (∀ v ∈ scope.literals, v ∈ literals) →
    scope.Le scope' ∧ (∀ v ∈ scope'.literals, v ∈ literals) ∧ ∀ g, scope'.Le g → P g a

lemma Ensures.pure {a : α} (h : ∀ g, P g a) : Ensures literals (pure a) P := by
  intro scope b scope' hx hl
  cases hx
  exact ⟨.refl _, hl, fun g _ => h g⟩

lemma Ensures.throw_bind {e : CodeError} : Ensures literals ((throw e : Lowering α) >>= f) Q := by
  intro scope b scope' hx
  cases hx

lemma Ensures.throw {e : CodeError} : Ensures literals (throw e : Lowering α) P := by
  intro scope b scope' hx
  cases hx

lemma Ensures.bind (hx : Ensures literals x P)
    (hf : ∀ a, Ensures literals (f a) fun g b => P g a → Q g b) : Ensures literals (x >>= f) Q := by
  intro scope b scope'' h hl
  obtain ⟨⟨a, scope'⟩, ha, hb⟩ := bind_eq_ok.1 h
  obtain ⟨hle, hl', hP⟩ := hx scope a scope' ha hl
  obtain ⟨hle', hl'', hQ⟩ := hf a scope' b scope'' hb hl'
  -- what is known of the part holds in every scope that is larger than the one of the whole
  exact ⟨hle.trans hle', hl'', fun g hg => hQ g hg (hP g (hle'.trans hg))⟩

/-- What follows a choice is looked at once. -/
lemma Ensures.ite_bind {c : Prop} [Decidable c] {y : Lowering α}
    (hx : c → Ensures literals x P) (hy : ¬c → Ensures literals y P)
    (hf : ∀ a, Ensures literals (f a) fun g b => P g a → Q g b) :
    Ensures literals (if c then x >>= f else y >>= f) Q := by
  split
  · exact (hx ‹_›).bind hf
  · exact (hy ‹_›).bind hf

lemma Ensures.imp {P' : Scope → α → Prop} (h : ∀ g a, P g a → P' g a) (hx : Ensures literals x P) :
    Ensures literals x P' := by
  intro scope a scope' ha hl
  obtain ⟨hle, hl', hP⟩ := hx scope a scope' ha hl
  exact ⟨hle, hl', fun g hg => h g a (hP g hg)⟩

lemma Ensures.map {h : α → β} (hx : Ensures literals x fun g a => Q g (h a)) :
    Ensures literals (h <$> x) Q :=
  hx.bind fun _ => .pure fun _ hQ => hQ

lemma Ensures.lift {y : Except CodeError α} (h : ∀ a, y = .ok a → ∀ g, P g a) :
    Ensures literals (liftM y) P := by
  intro scope a scope' ha hl
  obtain ⟨b, hb, hpure⟩ := bind_eq_ok.1 ha
  cases hpure
  exact ⟨.refl _, hl, fun g _ => h a hb g⟩

lemma Ensures.forM {l : List β} {h : β → Lowering Unit}
    (hh : ∀ b ∈ l, Ensures literals (h b) fun _ _ => True) :
    Ensures literals (l.forM h) fun _ _ => True := by
  induction l with
  | nil => exact .pure fun _ => trivial
  | cons b l ih =>
    rw [List.forall_mem_cons] at hh
    exact hh.1.bind fun _ => (ih hh.2).imp fun _ _ _ _ => trivial

lemma Ensures.discard (hx : Ensures literals x P) :
    Ensures literals (discard x) fun _ _ => True :=
  hx.bind fun _ => .pure fun _ _ => trivial

end

/-! ### The operations on the tables -/

variable {literals : List Value} {reserved : Std.TreeSet String}

lemma onPart_eq_ok {α τ : Type} [Inhabited τ] {get : Scope → τ} {put : τ → Scope → Scope}
    {f : τ → Except CodeError (α × τ)} {scope scope' : Scope} {a : α}
    (h : onPart get put f scope = .ok (a, scope')) :
    ∃ part, f (get scope) = .ok (a, part) ∧ scope' = put part (put default scope) := by
  obtain ⟨⟨b, part⟩, hf, hput⟩ := bind_eq_ok.1 h
  cases hput
  exact ⟨part, hf, rfl⟩

lemma ensures_intern (family : Family) (name : String) :
    Ensures literals (intern reserved family name) fun g i =>
      (g.table family).slot? name = some i := by
  intro scope i scope' h hl
  obtain ⟨t, ht, rfl⟩ := onPart_eq_ok h
  obtain ⟨hle, hslot⟩ := SymbolTable.intern_eq_ok ht
  rw [Scope.setTable_setTable]
  refine ⟨.setTable hle, ?_, fun g hg => ?_⟩
  · cases family <;> exact hl
  · have htable := hg.table family
    rw [Scope.table_setTable, if_pos rfl] at htable
    exact htable name i hslot

/-- A pool keeps its entries, and the place it gives holds the element or an equal one that was
there before. -/
lemma pool_eq_ok {α : Type} [BEq α] {table : Table} {a : α} {entries entries' : Array α} {i : ℕ}
    (h : pool table a entries = .ok (i, entries')) :
    (∀ (j : ℕ) b, entries[j]? = some b → entries'[j]? = some b) ∧
      (entries' = entries ∨ entries' = entries.push a) ∧
      ∃ b, entries'[i]? = some b ∧ (b = a ∨ b ∈ entries ∧ (b == a) = true) := by
  unfold pool at h
  split at h
  · rename_i k hk
    obtain ⟨j, hj, h⟩ := bind_eq_ok.1 h
    obtain ⟨-, rfl⟩ := operand_eq_ok.1 hj
    cases h
    have hfind : entries.findIdx? (· == a) = some i := by
      split at hk
      · exact hk
      · cases hk
    obtain ⟨hlt, heq, -⟩ := Array.findIdx?_eq_some_iff_getElem.1 hfind
    exact ⟨fun _ _ hb => hb, .inl rfl, entries[i], Array.getElem?_eq_getElem hlt,
      .inr ⟨Array.getElem_mem hlt, heq⟩⟩
  · obtain ⟨j, hj, h⟩ := bind_eq_ok.1 h
    obtain ⟨-, rfl⟩ := operand_eq_ok.1 hj
    cases h
    refine ⟨fun j b hb => ?_, .inr rfl, a, Array.getElem?_push_size, .inl rfl⟩
    have hlt : j < entries.size := (Array.getElem?_eq_some_iff.1 hb).1
    rw [Array.getElem?_push, if_neg (by omega), hb]

lemma find?_eq_some_of_first {α : Type} {p : α → Bool} {entries final : Array α}
    (hfinal : ∀ (j : ℕ) b, entries[j]? = some b → final[j]? = some b) {i : ℕ} {b : α}
    (hi : final[i]? = some b) (hle : i ≤ entries.size) (hb : p b = true)
    (hbefore : ∀ (j : ℕ) (hj : j < entries.size), j < i → p entries[j] = false) :
    final.find? p = some b := by
  obtain ⟨hlt, heq⟩ := Array.getElem?_eq_some_iff.1 hi
  rw [Array.find?_eq_some_iff_getElem]
  refine ⟨hb, i, hlt, heq, fun j hj => ?_⟩
  have hsize : j < entries.size := by omega
  obtain ⟨_, hsame⟩ := Array.getElem?_eq_some_iff.1 (hfinal j _ (Array.getElem?_eq_getElem hsize))
  rw [hsame, hbefore j hsize hj]
  rfl

lemma getElem?_of_pool {α : Type} [BEq α] {table : Table} {a : α} {entries entries' : Array α}
    {i : ℕ} (h : pool table a entries = .ok (i, entries')) {final : Array α}
    (hfinal : ∀ (j : ℕ) b, entries'[j]? = some b → final[j]? = some b) :
    final[i]? = some (pooled final a) := by
  have hkeep : ∀ (j : ℕ) b, entries[j]? = some b → final[j]? = some b :=
    fun j b hb => hfinal j b ((pool_eq_ok h).1 j b hb)
  unfold pool at h
  split at h
  · rename_i k hk
    obtain ⟨j, hj, h⟩ := bind_eq_ok.1 h
    obtain ⟨-, rfl⟩ := operand_eq_ok.1 hj
    cases h
    obtain ⟨hself, hk⟩ : (a == a) = true ∧ entries.findIdx? (· == a) = some i := by
      split at hk
      · exact ⟨‹_›, hk⟩
      · cases hk
    obtain ⟨hlt, heq, hbefore⟩ := Array.findIdx?_eq_some_iff_getElem.1 hk
    have hi : final[i]? = some entries[i] := hkeep i _ (Array.getElem?_eq_getElem hlt)
    have hfind : final.find? (· == a) = some entries[i] :=
      find?_eq_some_of_first hkeep hi (Nat.le_of_lt hlt) heq
        fun j _ hj => by simpa using hbefore j hj
    rw [hi, pooled, if_pos hself, hfind, Option.getD_some]
  · rename_i hnone
    obtain ⟨j, hj, h⟩ := bind_eq_ok.1 h
    obtain ⟨-, rfl⟩ := operand_eq_ok.1 hj
    cases h
    have hi : final[entries.size]? = some a := hfinal _ _ Array.getElem?_push_size
    rw [hi, pooled]
    split
    · rename_i hself
      rw [if_pos hself, Array.findIdx?_eq_none_iff] at hnone
      have hfind : final.find? (· == a) = some a :=
        find?_eq_some_of_first hkeep hi (Nat.le_refl _) hself
          fun j hj _ => by simpa using hnone _ (Array.getElem_mem hj)
      rw [hfind, Option.getD_some]
    · rfl

lemma ensures_addLiteral {v : Value} (hv : v ∈ literals) :
    Ensures literals (addLiteral v) fun g i =>
      g.literals[i]? = some (g.read v) ∧ g.read v ∈ literals := by
  intro scope i scope' h hl
  obtain ⟨part, hpart, rfl⟩ := onPart_eq_ok h
  obtain ⟨hkeep, hnew, u, hu, -⟩ := pool_eq_ok hpart
  have hpart' : ∀ w ∈ part, w ∈ literals := by
    rcases hnew with rfl | rfl
    · exact hl
    · intro w hw
      rcases Array.mem_push.1 hw with hw | rfl
      · exact hl w hw
      · exact hv
  refine ⟨{ Scope.Le.refl scope with literals := hkeep }, hpart', fun g hg => ?_⟩
  have hi : g.literals[i]? = some (g.read v) := getElem?_of_pool hpart hg.literals
  refine ⟨hi, ?_⟩
  obtain rfl : u = g.read v := Option.some.inj ((hg.literals i u hu).symm.trans hi)
  exact hpart' _ (Array.mem_of_getElem? hu)

lemma ensures_addKeywordSet (names : List String) :
    Ensures literals (addKeywordSet names) fun g i => g.keywordSets[i]? = some names := by
  intro scope i scope' h hl
  obtain ⟨part, hpart, rfl⟩ := onPart_eq_ok h
  obtain ⟨hkeep, -, b, hb, hsame⟩ := pool_eq_ok hpart
  refine ⟨{ Scope.Le.refl scope with keywordSets := hkeep }, hl, fun g hg => ?_⟩
  obtain rfl : b = names := hsame.elim id fun ⟨_, heq⟩ => by simpa using heq
  exact hg.keywordSets i b hb

lemma ensures_addRaise (kind message : String) :
    Ensures literals (addRaise kind message) fun g i => g.raises[i]? = some (kind, message) := by
  intro scope i scope' h hl
  obtain ⟨part, hpart, rfl⟩ := onPart_eq_ok h
  obtain ⟨j, hj, hpush⟩ := bind_eq_ok.1 hpart
  obtain ⟨-, rfl⟩ := operand_eq_ok.1 hj
  cases hpush
  refine ⟨{ Scope.Le.refl scope with raises := fun j r hr => ?_ }, hl, fun g hg => ?_⟩
  · have hlt : j < scope.raises.size := (Array.getElem?_eq_some_iff.1 hr).1
    exact (Array.getElem?_push).trans ((if_neg (by omega)).trans hr)
  · exact hg.raises _ _ Array.getElem?_push_size

lemma ensures_variableSlot (instruction x : String) :
    Ensures literals (variableSlot reserved instruction x) fun g slot => g.slot? x = some slot := by
  unfold variableSlot
  split
  · exact .throw
  · split
    · rename_i hpersistent
      refine (ensures_intern .persistent x).bind fun i => .pure fun g hi => ?_
      have hi : g.persistent.slot? x = some i := hi
      rw [Scope.slot?, if_pos hpersistent, hi, Option.map_some]
    · rename_i hpersistent
      refine (ensures_intern .ofState x).bind fun i => .pure fun g hi => ?_
      have hi : g.locals.slot? x = some i := hi
      rw [Scope.slot?, if_neg hpersistent, hi, Option.map_some]

lemma ensures_jumpOver (distance : ℕ) :
    Ensures literals (jumpOver distance) fun _ offset => offset = distance := by
  unfold jumpOver
  split
  · exact .pure fun _ => rfl
  · exact .throw

lemma ensures_internNames (i : Instruction) :
    Ensures literals (internNames reserved i) fun _ _ => True := by
  unfold internNames
  refine Ensures.bind (P := fun _ _ => True) ?_ fun _ => ?_
  · exact .forM fun name _ => (ensures_variableSlot i.id name).discard
  · refine Ensures.imp (P := fun _ _ => True) (fun _ _ _ _ => trivial) ?_
    exact .forM fun name _ => (ensures_intern .function name).discard

end Lowering

end TimeMarch
