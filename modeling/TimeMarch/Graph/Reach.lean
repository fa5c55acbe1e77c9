import TimeMarch.InstructionSet
import TimeMarch.Measure

/-!
# Reachable Instructions

A walk follows references from instruction to instruction, deepest first, and lists what it meets in
the order in which it first meets it. References to unregistered ids lead nowhere. Every round takes
up a pending reference, and an instruction adds its references only once, when it is listed; so the
references that are still to be taken up become fewer and the walk ends.
-/

namespace TimeMarch

/-- Distinct names in the order of their arrival. -/
abbrev Roll := Roster Unit

def Roll.ofList (l : List String) : Roll := Roster.ofList (l.map fun n => (n, ()))

namespace Graph

/-- The references that registered instructions add once they are listed, and one more for each. -/
def unlisted (s : InstructionSet) (follow : Instruction → List String) (seen : Roll) : Nat :=
  total (fun i => if seen.contains i.id then 0 else (follow i).length + 1) s.toList

theorem mem_toList_of_get? {s : InstructionSet} {id : String} {i : Instruction}
    (h : s.get? id = some i) : i ∈ s.toList ∧ i.id = id := by
  have hmem := (s.roster.get?_eq_some_iff id i).1 h
  exact ⟨List.mem_map.2 ⟨_, hmem, rfl⟩, s.id_eq _ hmem⟩

theorem mem_ids_of_get? {s : InstructionSet} {id : String} {i : Instruction}
    (h : s.get? id = some i) : id ∈ s.ids :=
  List.mem_map.2 ⟨_, (s.roster.get?_eq_some_iff id i).1 h, rfl⟩

/-- Listing an instruction takes its references out of those that are still to come. -/
theorem unlisted_push_add_le {s : InstructionSet} (follow : Instruction → List String)
    {seen : Roll} {id : String} {i : Instruction} (h : seen.place? id = none)
    (hi : s.get? id = some i) :
    unlisted s follow (seen.push id () h) + ((follow i).length + 1) ≤ unlisted s follow seen := by
  obtain ⟨hmem, hid⟩ := mem_toList_of_get? hi
  apply total_add_le _ hmem
  · simp [Roster.contains, Roster.place?_push, h, hid]
  · intro x
    by_cases hx : id = x.id
    · simp [Roster.contains, Roster.place?_push, hx]
    · simp only [Roster.contains, Roster.place?_push, hx, if_false]
      exact Nat.le_refl _

/-- Follow the pending references, the first one first. `outer` holds ids at which the walk turns
back without listing them. -/
def walk (s : InstructionSet) (follow : Instruction → List String) (outer : String → Bool) :
    (pending : List String) → (seen : Roll) → Roll
  | [], seen => seen
  | id :: rest, seen =>
    if outer id then walk s follow outer rest seen
    else match hi : s.get? id with
      | none => walk s follow outer rest seen
      | some i =>
        if h : seen.place? id = none then
          have := unlisted_push_add_le follow h hi
          walk s follow outer (follow i ++ rest) (seen.push id () h)
        else walk s follow outer rest seen
termination_by pending seen => pending.length + unlisted s follow seen
decreasing_by
  all_goals simp only [List.length_cons, List.length_append]; omega

/-- All that can be reached from the roots over dependencies and over both arms of branches. -/
def reachable (s : InstructionSet) (roots : List String) : Roll :=
  walk s Instruction.references (fun _ => false) roots .empty

end Graph

end TimeMarch
