import Std.Data.TreeMap

/-!
# Rosters

A roster holds entries under distinct names and remembers the order in which the names came. The
entries stand in an array; a search tree beside it finds a name's place. The law `places_spec` ties
the two together, so a place that is found is the place of that name, and no name has two.
-/

namespace TimeMarch

structure Roster (α : Type) where
  entries : Array (String × α)
  places : Std.TreeMap String Nat
  places_spec : ∀ (k : String) (i : Nat),
    places[k]? = some i ↔ entries[i]?.map Prod.fst = some k

namespace Roster

variable {α : Type}

def empty : Roster α where
  entries := #[]
  places := ∅
  places_spec := by simp

instance : Inhabited (Roster α) := ⟨empty⟩

def size (r : Roster α) : Nat := r.entries.size

/-- The place of a name, counted from zero in the order of arrival. -/
def place? (r : Roster α) (k : String) : Option Nat := r.places[k]?

def contains (r : Roster α) (k : String) : Bool := (r.place? k).isSome

def get? (r : Roster α) (k : String) : Option α :=
  (r.place? k).bind fun i => r.entries[i]?.map Prod.snd

def toList (r : Roster α) : List (String × α) := r.entries.toList

def keys (r : Roster α) : List String := r.toList.map Prod.fst

def values (r : Roster α) : List α := r.toList.map Prod.snd

/-- Put a new name at the end. -/
def push : (r : Roster α) → (k : String) → (a : α) → r.place? k = none → Roster α
  | ⟨entries, places, spec⟩, k, a, h =>
    let place := entries.size
    { entries := entries.push (k, a)
      places := places.insert k place
      places_spec := by
        intro k' i
        have old := spec
        simp only [place?] at h
        simp only [Std.TreeMap.getElem?_insert, Std.LawfulEqCmp.compare_eq_iff_eq,
          Array.getElem?_push]
        grind }

/-- Give the entry at a place a new content; its name stays. -/
def set (r : Roster α) (i : Nat) (a : α) : Roster α where
  entries := r.entries.modify i fun e => (e.1, a)
  places := r.places
  places_spec := by
    intro k j
    rw [r.places_spec k j, Array.getElem?_modify]
    split <;> simp

/-- Put a name at the end, or replace the content under it where it stands. -/
def insert (r : Roster α) (k : String) (a : α) : Roster α :=
  match h : r.place? k with
  | none => r.push k a h
  | some i => r.set i a

def ofList (l : List (String × α)) : Roster α :=
  l.foldl (fun r (k, a) => r.insert k a) empty

@[simp] theorem place?_empty (k : String) : (empty : Roster α).place? k = none := by
  simp [place?, empty]

@[simp] theorem toList_empty : (empty : Roster α).toList = [] := rfl

@[simp] theorem toList_push (r : Roster α) (k : String) (a : α) (h : r.place? k = none) :
    (r.push k a h).toList = r.toList ++ [(k, a)] := by
  simp [toList, push]

theorem place?_push (r : Roster α) (k : String) (a : α) (h : r.place? k = none) (k' : String) :
    (r.push k a h).place? k' = if k = k' then some r.size else r.place? k' := by
  simp [place?, push, size, Std.TreeMap.getElem?_insert]

theorem place?_eq_some_iff (r : Roster α) (k : String) (i : Nat) :
    r.place? k = some i ↔ ∃ a, r.toList[i]? = some (k, a) := by
  rw [place?, r.places_spec]
  simp [toList, Option.map_eq_some_iff]

theorem contains_iff (r : Roster α) (k : String) : r.contains k = true ↔ k ∈ r.keys := by
  simp [contains, Option.isSome_iff_exists, place?_eq_some_iff, keys, List.mem_iff_getElem?]

theorem get?_eq_some_iff (r : Roster α) (k : String) (a : α) :
    r.get? k = some a ↔ (k, a) ∈ r.toList := by
  simp only [get?, Option.bind_eq_some_iff, place?_eq_some_iff, List.mem_iff_getElem?, toList,
    Array.getElem?_toList]
  constructor
  · rintro ⟨i, ⟨b, hb⟩, ha⟩
    rw [hb, Option.map_some, Option.some.injEq] at ha
    subst ha
    exact ⟨i, hb⟩
  · rintro ⟨i, hi⟩
    exact ⟨i, ⟨a, hi⟩, by rw [hi, Option.map_some]⟩

end Roster

end TimeMarch
