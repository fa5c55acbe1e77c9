import Std.Data.TreeSet

/-!
# Sets of Names

A set of names is the list of its members in increasing order, each once. Two sets with the same
members are therefore equal, and walking a set always meets its members in the same order.
-/

namespace TimeMarch

structure NameSet where
  toList : List String
  sorted : toList.Pairwise (· < ·)
  deriving DecidableEq

namespace NameSet

/-- The set of the names in a list. -/
def ofList (l : List String) : NameSet where
  toList := (Std.TreeSet.ofList l).toList
  sorted := by
    apply List.Pairwise.imp _ Std.TreeSet.ordered_toList
    intro a b h
    exact compareOfLessAndEq_eq_lt.1 h

def empty : NameSet := ⟨[], List.Pairwise.nil⟩

instance : EmptyCollection NameSet := ⟨empty⟩

instance : Inhabited NameSet := ⟨∅⟩

instance : Membership String NameSet := ⟨fun s a => a ∈ s.toList⟩

instance (a : String) (s : NameSet) : Decidable (a ∈ s) :=
  inferInstanceAs (Decidable (a ∈ s.toList))

def union (s t : NameSet) : NameSet := ofList (s.toList ++ t.toList)

instance : Union NameSet := ⟨union⟩

@[simp] theorem mem_toList {a : String} {s : NameSet} : a ∈ s.toList ↔ a ∈ s := Iff.rfl

@[simp] theorem mem_ofList {a : String} {l : List String} : a ∈ ofList l ↔ a ∈ l := by
  rw [← mem_toList, ofList, Std.TreeSet.mem_toList, Std.TreeSet.mem_ofList, List.contains_iff_mem]

@[simp] theorem mem_union {a : String} {s t : NameSet} : a ∈ s ∪ t ↔ a ∈ s ∨ a ∈ t := by
  rw [show s ∪ t = ofList (s.toList ++ t.toList) from rfl]
  simp

/-- Sets with the same members are equal. -/
theorem ext {s t : NameSet} (h : ∀ a, a ∈ s ↔ a ∈ t) : s = t := by
  obtain ⟨l, hl⟩ := s
  obtain ⟨l', hl'⟩ := t
  have hnodup : ∀ {l : List String}, l.Pairwise (· < ·) → l.Nodup := by
    intro l hl
    apply List.Pairwise.imp _ hl
    rintro a b hlt rfl
    exact String.lt_irrefl a hlt
  have hperm : l.Perm l' := (List.perm_ext_iff_of_nodup (hnodup hl) (hnodup hl')).2 h
  have heq : l = l' := by
    apply List.Perm.eq_of_pairwise _ hl hl' hperm
    intro a b _ _ hab hba
    exact absurd hba (String.lt_asymm hab)
  subst heq
  rfl

end NameSet

end TimeMarch
