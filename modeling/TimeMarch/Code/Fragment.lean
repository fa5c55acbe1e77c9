import TimeMarch.Code

/-!
# Fragments of Code

Code is put together from the code of its parts, many layers deep. A fragment remembers what was
joined and copies nothing until the whole is read off as a list; the list of a join is the lists in
a row.
-/

namespace TimeMarch

inductive Fragment where
  | ops (l : List Op)
  | join (left right : Fragment)

namespace Fragment

instance : Inhabited Fragment := ⟨ops []⟩

instance : Append Fragment := ⟨join⟩

/-- The operations of a fragment in front of those of a list. -/
def onto : Fragment → List Op → List Op
  | ops l, rest => l ++ rest
  | join left right, rest => left.onto (right.onto rest)

def toList (f : Fragment) : List Op := f.onto []

/-- The number of operations. -/
def length : Fragment → Nat
  | ops l => l.length
  | join left right => left.length + right.length

theorem onto_eq (f : Fragment) (rest : List Op) : f.onto rest = f.toList ++ rest := by
  induction f generalizing rest with
  | ops l => simp [toList, onto]
  | join left right ihl ihr =>
    rw [toList, onto, onto, ihl, ihl (right.onto []), ihr, ihr [], List.append_assoc]
    simp

@[simp] theorem toList_ops (l : List Op) : (ops l).toList = l := by
  simp [toList, onto]

@[simp] theorem toList_append (f g : Fragment) : (f ++ g).toList = f.toList ++ g.toList :=
  onto_eq f g.toList

@[simp] theorem length_toList (f : Fragment) : f.toList.length = f.length := by
  induction f with
  | ops l => simp [length]
  | join left right ihl ihr =>
    rw [show (join left right).toList = left.toList ++ right.toList from toList_append left right,
      List.length_append, ihl, ihr, length]

end Fragment

end TimeMarch
