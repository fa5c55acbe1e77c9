import TimeMarch.Proofs.Searches
import TimeMarch.Proofs.Units

/-!
# Scheduling Comes to an End

Nothing need be known of an instruction set for it to be scheduled: dependencies may run in circles
and dangle, and arms may contain each other or the branch itself. The search for the members of a
unit has as many rounds as there are references to take up. The arms of a branch are scheduled with
the branch as a further outer id, so fewer registered ids are inside, and units are nested no deeper
than there are such ids.

To say that nothing goes on for ever, we schedule under two limits, one for the rounds of a search
and one for the nesting, and give up where a limit is reached. With limits that are large enough one
never gives up, and gets what scheduling without limits gives.
-/

namespace TimeMarch

namespace Graph.Search

variable {s : InstructionSet} {follow : Instruction → List String} {outer : String → Bool}
  {a b : Search}

variable (s follow outer) in
def finish : (rounds : ℕ) → Search → Option Search
  | 0, a => if a.pending.isEmpty then some a else none
  | rounds + 1, a =>
    match a.next? s follow outer with
    | none => some a
    | some b => finish rounds b

lemma finish_of_pending_eq_nil (h : a.pending = []) (rounds : ℕ) :
    a.finish s follow outer rounds = some a := by
  cases rounds with
  | zero => rw [finish, h, List.isEmpty_nil, if_pos rfl]
  | succ rounds => rw [finish, next?_eq_none_iff.2 h]

lemma finish_of_run {n rounds : ℕ} (h : a.run s follow outer n = some b) (hend : b.pending = [])
    (hle : n ≤ rounds) : a.finish s follow outer rounds = some b := by
  induction n generalizing a rounds with
  | zero =>
    obtain rfl := Option.some.inj h
    exact finish_of_pending_eq_nil hend rounds
  | succ n ih =>
    obtain ⟨c, hc, h⟩ := Option.bind_eq_some_iff.1 h
    obtain ⟨rounds, rfl⟩ : ∃ r, rounds = r + 1 := ⟨rounds - 1, by omega⟩
    rw [finish, hc]
    exact ih h (by omega)

lemma le_weight_of_run {n : ℕ} (h : a.run s follow outer n = some b) :
    n + b.weight s follow ≤ a.weight s follow := by
  induction n generalizing a with
  | zero =>
    obtain rfl := Option.some.inj h
    omega
  | succ n ih =>
    obtain ⟨c, hc, h⟩ := Option.bind_eq_some_iff.1 h
    have hrest := ih h
    have hless := weight_lt_of_next? hc
    omega

end Graph.Search

namespace Schedule

open TimeMarch.Graph

section

variable {s : InstructionSet} {outer : Std.TreeSet String} {roots : List String}

variable (s outer roots) in
lemma run_members :
    (Search.start roots).run s (fun i => i.dependsOn.toList) outer.contains
        (takenUp s (fun i => i.dependsOn.toList) roots (members s outer roots)).length =
      some ⟨[], members s outer roots, .ofList (metOuter s outer roots (members s outer roots))⟩ :=
  Search.run_start s (fun i => i.dependsOn.toList) outer.contains roots

lemma finish_members {rounds : ℕ}
    (h : roots.length + unlisted s (fun i => i.dependsOn.toList) .empty ≤ rounds) :
    (Search.start roots).finish s (fun i => i.dependsOn.toList) outer.contains rounds =
      some ⟨[], members s outer roots,
        .ofList (metOuter s outer roots (members s outer roots))⟩ := by
  have hrun := run_members s outer roots
  have hweight : (Search.start roots).weight s (fun i => i.dependsOn.toList) ≤ rounds := h
  have hrounds := Search.le_weight_of_run hrun
  exact Search.finish_of_run hrun rfl (by omega)

/-! ### Scheduling under limits -/

variable (s) in
/-- Schedule a unit with so many rounds for the search of its members and so many units within each
other, the unit itself counted. -/
def unitWithin (rounds : ℕ) : (depth : ℕ) → (roots : List String) →
    (outer : Std.TreeSet String) → ExceptT (List String) Option Plan
  | 0, _, _ => .mk none
  | depth + 1, roots, outer => do
    let a ← ExceptT.lift <|
      (Search.start roots).finish s (fun i => i.dependsOn.toList) outer.contains rounds
    let inner := outer.insertMany a.listed.keys
    let arms ← a.listed.keys.filterMapM fun id => do
      match armsOf s id with
      | none => return none
      | some (yes, no) =>
        let yes ← unitWithin rounds depth yes.toList inner
        let no ← unitWithin rounds depth no.toList inner
        return some (id, yes, no)
    .mk (some (assemble s a.listed a.met.toList (Roster.ofList arms)))

end

section

variable {ε α β : Type}

/-- A computation that is not cut off goes on as without limits. -/
lemma bind_run_eq_some {x : ExceptT ε Option α} {y : Except ε α} {f : α → ExceptT ε Option β}
    {g : α → Except ε β} (hx : x.run = some y) (hf : ∀ a, (f a).run = some (g a)) :
    (x >>= f).run = some (y >>= g) := by
  obtain rfl : x = ExceptT.mk (some y) := hx
  cases y with
  | error e => rfl
  | ok a => exact hf a

lemma filterMapM_run_eq_some {l : List α} {f : α → ExceptT ε Option (Option β)}
    {g : α → Except ε (Option β)} (h : ∀ a ∈ l, (f a).run = some (g a)) :
    (l.filterMapM f).run = some (l.filterMapM g) := by
  induction l with
  | nil => rfl
  | cons a l ih =>
    rw [List.forall_mem_cons] at h
    rw [List.filterMapM_cons, List.filterMapM_cons]
    refine bind_run_eq_some h.1 fun o => ?_
    cases o with
    | none => exact ih h.2
    | some b => exact bind_run_eq_some (ih h.2) fun _ => rfl

end

section

variable {s : InstructionSet}

lemma assemble_congr {members : Roll} {met met' : List String} (h : ∀ m, m ∈ met ↔ m ∈ met')
    (arms : Roster (Plan × Plan)) :
    assemble s members met arms = assemble s members met' arms := by
  have hneeds : ∀ passedOn : List String,
      NameSet.ofList (met ++ passedOn) = NameSet.ofList (met' ++ passedOn) := by
    intro passedOn
    refine NameSet.ext fun m => ?_
    rw [NameSet.mem_ofList, NameSet.mem_ofList, List.mem_append, List.mem_append, h]
  unfold assemble
  simp only [hneeds]

lemma length_arm_le {id : String} {yes no : NameSet} (h : armsOf s id = some (yes, no)) :
    yes.toList.length ≤ total (fun i => i.references.length) s.toList ∧
      no.toList.length ≤ total (fun i => i.references.length) s.toList := by
  obtain ⟨i, hi, harms⟩ := (armsOf_eq_some s).1 h
  have hlength : i.references.length =
      i.dependsOn.toList.length + yes.toList.length + no.toList.length := by
    simp [Instruction.references, harms, Nat.add_assoc]
  have hle := le_total (fun i => i.references.length) (mem_toList_of_get? hi).1
  omega

variable (s) in
def armRounds : ℕ :=
  total (fun i => i.references.length) s.toList + unlisted s (fun i => i.dependsOn.toList) .empty

/-- **Limits that are large enough are not noticed.** -/
theorem unitWithin_eq {rounds depth : ℕ} (harms : armRounds s ≤ rounds) {roots : List String}
    {outer : Std.TreeSet String}
    (hrounds : roots.length + unlisted s (fun i => i.dependsOn.toList) .empty ≤ rounds)
    (hdepth : inside s outer < depth) :
    (unitWithin s rounds depth roots outer).run = some (unit s roots outer) := by
  induction depth generalizing roots outer with
  | zero => omega
  | succ depth ih =>
    have hunit : ∀ id ∈ (members s outer roots).keys, ∀ arm : NameSet,
        arm.toList.length ≤ total (fun i => i.references.length) s.toList →
          (unitWithin s rounds depth arm.toList (inner s outer roots)).run =
            some (unit s arm.toList (inner s outer roots)) := by
      intro id hid arm hlength
      have hlt : inside s (inner s outer roots) < inside s outer := inside_insertMany_lt hid
      exact ih (by unfold armRounds at harms; omega) (by omega)
    rw [unitWithin, unit_eq, finish_members hrounds]
    refine bind_run_eq_some (filterMapM_run_eq_some fun id hid => ?_) fun arms => ?_
    · unfold armPlans
      cases harm : armsOf s id with
      | none => rfl
      | some a =>
        obtain ⟨yes, no⟩ := a
        obtain ⟨hyes, hno⟩ := length_arm_le harm
        exact bind_run_eq_some (hunit id hid yes hyes) fun y =>
          bind_run_eq_some (hunit id hid no hno) fun n => rfl
    · exact congrArg some (assemble_congr (fun m => NameSet.mem_ofList) _)

/-! ### Units within units -/

variable (s) in
/-- The first unit, given by its roots and outer ids, has a branch with the second one as an arm. -/
inductive Opens : List String × Std.TreeSet String → List String × Std.TreeSet String → Prop where
  | yes {roots : List String} {outer : Std.TreeSet String} {id : String} {yes no : NameSet}
      (hid : id ∈ (members s outer roots).keys) (harms : armsOf s id = some (yes, no)) :
      Opens (roots, outer) (yes.toList, inner s outer roots)
  | no {roots : List String} {outer : Std.TreeSet String} {id : String} {yes no : NameSet}
      (hid : id ∈ (members s outer roots).keys) (harms : armsOf s id = some (yes, no)) :
      Opens (roots, outer) (no.toList, inner s outer roots)

lemma Opens.inside_lt {u v : List String × Std.TreeSet String} (h : Opens s u v) :
    inside s v.2 < inside s u.2 := by
  cases h with
  | yes hid _ => exact inside_insertMany_lt hid
  | no hid _ => exact inside_insertMany_lt hid

lemma length_le_of_isChain_opens {u : List String × Std.TreeSet String}
    {below : List (List String × Std.TreeSet String)} (h : List.IsChain (Opens s) (u :: below)) :
    below.length ≤ inside s u.2 := by
  induction below generalizing u with
  | nil => exact Nat.zero_le _
  | cons v below ih =>
    rw [List.isChain_cons_cons] at h
    have hlt := h.1.inside_lt
    have hrest := ih h.2
    rw [List.length_cons]
    omega

end

/-- **Scheduling comes to an end**, whatever the instructions, the roots and the outer ids are. The
search for the members of a unit takes one round for every reference that it takes up. Every arm has
fewer registered ids inside than the unit around it, so there are no more units within each other
than there are such ids, and limits to the rounds and to the nesting that allow for this are never
reached. -/
theorem unit_comes_to_an_end (s : InstructionSet) (roots : List String)
    (outer : Std.TreeSet String) :
    (∀ a b, Search.next? s (fun i => i.dependsOn.toList) outer.contains a = some b →
      b.weight s (fun i => i.dependsOn.toList) < a.weight s (fun i => i.dependsOn.toList)) ∧
    (Search.start roots).run s (fun i => i.dependsOn.toList) outer.contains
        (takenUp s (fun i => i.dependsOn.toList) roots (members s outer roots)).length =
      some ⟨[], members s outer roots, .ofList (metOuter s outer roots (members s outer roots))⟩ ∧
    (∀ arm, Opens s (roots, outer) arm → inside s arm.2 < inside s outer) ∧
    (∀ below, List.IsChain (Opens s) ((roots, outer) :: below) → below.length ≤ inside s outer) ∧
    ∀ rounds depth, roots.length + armRounds s ≤ rounds → inside s outer < depth →
      (unitWithin s rounds depth roots outer).run = some (unit s roots outer) := by
  refine ⟨fun a b => Search.weight_lt_of_next?, run_members s outer roots,
    fun arm h => h.inside_lt, fun below h => length_le_of_isChain_opens h, ?_⟩
  intro rounds depth hrounds hdepth
  unfold armRounds at hrounds
  exact unitWithin_eq (by unfold armRounds; omega) (by omega) hdepth

/-- A branch with itself in an arm and another one that has it in turn, two instructions that depend
on each other, and a dependency that nothing is registered for. -/
def tangle : InstructionSet :=
  (InstructionSet.empty.addAll [
    ⟨"a", .ofList ["gone"], .branch (.var "c") (.ofList ["a", "b"]) (.ofList ["x"])⟩,
    ⟨"b", ∅, .branch (.var "c") (.ofList ["a"]) (.ofList ["b", "y"])⟩,
    ⟨"x", .ofList ["y"], .abort⟩,
    ⟨"y", .ofList ["x"], .abort⟩]).toOption.getD .empty

theorem unit_comes_to_an_end_tangle :
    inside tangle ∅ = 4 ∧ armRounds tangle = 16 ∧
    (unitWithin tangle 17 5 ["a"] ∅).run = some (unit tangle ["a"] ∅) ∧
    (unit tangle ["a"] ∅).map Plan.needs = .error ["y", "x"] := by
  have hinside : inside tangle ∅ = 4 := by decide +kernel
  have hrounds : armRounds tangle = 16 := by decide +kernel
  refine ⟨hinside, hrounds, ?_, by decide +kernel⟩
  exact (unit_comes_to_an_end tangle ["a"] ∅).2.2.2.2 17 5 (by simp [hrounds]) (by omega)

end Schedule

end TimeMarch
