import TimeMarch.Program

/-!
# Schedules

The work of a state is a *unit*: all that its roots depend on, in dependency order. A branch in a
unit owns two units, one for each arm, of which one runs. An arm never repeats what the units around
it do; where it relies on such an instruction, that instruction is ordered before the branch.

Scheduling a unit means scheduling the arms of its branches against more and more outer ids, so the
registered ids that are not yet outer become fewer and it ends, also when arms contain each other.
-/

namespace TimeMarch

/-- One step of a schedule. -/
inductive Step where
  | run (id : String)
  | branch (id : String) (yes no : List Step)

def Step.id : Step → String
  | run id => id
  | branch id _ _ => id

namespace Schedule

/-- What a unit does, in order, and the outer instructions that it relies on. -/
structure Plan where
  steps : List Step
  needs : NameSet

/-- The instructions of the unit with the given roots. -/
def members (s : InstructionSet) (outer : Std.TreeSet String) (roots : List String) : Roll :=
  Graph.walk s (fun i => i.dependsOn.toList) outer.contains roots .empty

/-- The ids at which the walk over a unit turned back. -/
def metOuter (s : InstructionSet) (outer : Std.TreeSet String) (roots : List String)
    (members : Roll) : List String :=
  (roots ++ members.keys.flatMap fun id =>
    ((s.get? id).map fun i => i.dependsOn.toList).getD []).filter outer.contains

/-- How many registered ids are not outer. -/
def inside (s : InstructionSet) (outer : Std.TreeSet String) : Nat :=
  s.ids.countP fun id => !outer.contains id

theorem walk_spec (s : InstructionSet) (follow : Instruction → List String)
    (outer : String → Bool) (pending : List String) (seen : Roll)
    (hseen : ∀ id ∈ seen.keys, id ∈ s.ids ∧ outer id = false) :
    ∀ id ∈ (Graph.walk s follow outer pending seen).keys, id ∈ s.ids ∧ outer id = false := by
  fun_induction Graph.walk s follow outer pending seen with
  | case1 seen => exact hseen
  | case2 id rest seen houter ih => exact ih hseen
  | case3 id rest seen houter hi ih => exact ih hseen
  | case4 id rest seen houter i hi h hlt ih =>
    apply ih
    intro id' hid'
    simp only [Roster.keys, Roster.toList_push, List.map_append, List.mem_append, List.map_cons,
      List.map_nil, List.mem_singleton] at hid'
    rcases hid' with hid' | rfl
    · exact hseen id' hid'
    · exact ⟨Graph.mem_ids_of_get? hi, by simpa using houter⟩
  | case5 id rest seen houter i hi h ih => exact ih hseen

theorem mem_members {s : InstructionSet} {outer : Std.TreeSet String} {roots : List String}
    {id : String} (h : id ∈ (members s outer roots).keys) :
    id ∈ s.ids ∧ outer.contains id = false :=
  walk_spec s _ outer.contains roots .empty (by simp [Roster.keys]) id h

theorem inside_insertMany_lt {s : InstructionSet} {outer : Std.TreeSet String}
    {roots : List String} {id : String} (h : id ∈ (members s outer roots).keys) :
    inside s (outer.insertMany (members s outer roots).keys) < inside s outer := by
  obtain ⟨hid, houter⟩ := mem_members h
  apply countP_lt_countP (a := id)
  · intro x hx
    simp only [Bool.not_eq_true', Std.TreeSet.contains_insertMany_list, Bool.or_eq_false_iff] at hx
    simpa using hx.1
  · exact hid
  · simp [houter]
  · simp [Std.TreeSet.contains_insertMany_list, h]

/-- The outer instructions that the arms of a branch rely on. -/
def armNeeds (arms : Plan × Plan) : List String := arms.1.needs.toList ++ arms.2.needs.toList

/-- Put the members of a unit in order once the arms of its branches are scheduled. A branch also
comes after the members that its arms rely on; what else the arms rely on, the unit relies on. -/
def assemble (s : InstructionSet) (members : Roll) (met : List String)
    (arms : Roster (Plan × Plan)) : Except (List String) Plan := do
  let before id :=
    ((s.get? id).map fun i => i.dependsOn.toList).getD [] ++
      (((arms.get? id).map armNeeds).getD []).filter fun n => members.contains n && n != id
  let rank id := (s.rank? id).getD s.size
  let order ← Graph.order members before rank
  let steps := order.map fun id =>
    match arms.get? id with
    | some (yes, no) => .branch id yes.steps no.steps
    | none => .run id
  let passedOn := arms.values.flatMap fun a => (armNeeds a).filter fun n => !members.contains n
  return ⟨steps, NameSet.ofList (met ++ passedOn)⟩

/-- Schedule a unit. The error lists the members that cannot be ordered. -/
def unit (s : InstructionSet) (roots : List String) (outer : Std.TreeSet String) :
    Except (List String) Plan := do
  let members := members s outer roots
  let inner := outer.insertMany members.keys
  let arms ← members.keys.attach.filterMapM fun ⟨id, _⟩ => do
    match (s.get? id).bind Instruction.arms? with
    | none => return none
    | some (yes, no) =>
      let yes ← unit s yes.toList inner
      let no ← unit s no.toList inner
      return some (id, yes, no)
  assemble s members (metOuter s outer roots members) (Roster.ofList arms)
termination_by inside s outer
decreasing_by all_goals exact inside_insertMany_lt ‹_›

/-- The schedule of a state. -/
def ofRoots (s : InstructionSet) (roots : List String) : Except (List String) (List Step) :=
  return (← unit s roots ∅).steps

end Schedule

end TimeMarch
