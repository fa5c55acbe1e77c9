import TimeMarch.Value

/-!
# Storage

Persistent variables live in numbered slots. A slot is empty until a value is put there, and storage
grows to hold the slots that are written.
-/

namespace TimeMarch

structure Storage where
  slots : Array (Option Value) := #[]

namespace Storage

instance : Inhabited Storage := ⟨{}⟩

def ofSize (n : Nat) : Storage := ⟨Array.replicate n none⟩

def get? (s : Storage) (slot : Nat) : Option Value := (s.slots[slot]?).join

def set (s : Storage) (slot : Nat) (v : Value) : Storage :=
  if slot < s.slots.size then ⟨s.slots.setIfInBounds slot (some v)⟩
  else ⟨(s.slots ++ Array.replicate (slot - s.slots.size) none).push (some v)⟩

/-- Empty every slot. -/
def clear (s : Storage) : Storage := ofSize s.slots.size

@[simp] theorem get?_ofSize (n slot : Nat) : (ofSize n).get? slot = none := by
  rw [get?, ofSize, Array.getElem?_replicate]
  split <;> rfl

@[simp] theorem get?_clear (s : Storage) (slot : Nat) : s.clear.get? slot = none :=
  get?_ofSize _ _

theorem get?_set (s : Storage) (slot : Nat) (v : Value) (k : Nat) :
    (s.set slot v).get? k = if slot = k then some v else s.get? k := by
  unfold set get?
  by_cases h : slot < s.slots.size
  · simp only [h, if_true, Array.getElem?_setIfInBounds]
    split <;> simp_all
  · simp only [h, if_false, Array.getElem?_push, Array.getElem?_append, Array.getElem?_replicate,
      Array.size_append, Array.size_replicate]
    grind

end Storage

end TimeMarch
