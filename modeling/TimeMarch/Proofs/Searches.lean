import TimeMarch.Proofs.WellFormedness

/-!
# Searches

A search keeps the references that it has still to take up, the first one first, and goes round by
round. Here the rounds are looked at one by one: every round makes a search lighter, so there is a
last one, and what is listed then is what the walk lists. There are as many rounds as there are
references to take up, the roots and those of the instructions that get listed.

The pending references are a stack: those of an instruction that gets listed come before all others,
and are used up before the others have their turn. So the search lists instructions in the order of
the recursive visit.
-/

namespace TimeMarch.Graph

/-- A search under way: the references to be taken up, the ids that are listed so far, and the outer
ids at which it has turned back. -/
structure Search where
  pending : List String
  listed : Roll
  met : NameSet

section

variable (s : InstructionSet) (follow : Instruction → List String) (outer : String → Bool)

def referencesBy (id : String) : List String := ((s.get? id).map follow).getD []

/-- What a search from the roots takes up if it lists the given ids. -/
def takenUp (roots : List String) (listed : Roll) : List String :=
  roots ++ listed.keys.flatMap (referencesBy s follow)

variable {s follow outer} in
lemma walk_cons_of_outer {id : String} {rest : List String} {seen : Roll} (h : outer id = true) :
    walk s follow outer (id :: rest) seen = walk s follow outer rest seen := by
  rw [walk, if_pos h]

variable {s follow outer} in
lemma walk_cons_of_pass {id : String} {rest : List String} {seen : Roll}
    (h : s.get? id = none ∨ seen.place? id ≠ none) :
    walk s follow outer (id :: rest) seen = walk s follow outer rest seen := by
  rw [walk]
  split
  · rfl
  · split
    · rfl
    · rename_i i hi
      have hknown : seen.place? id ≠ none := h.resolve_left (by simp [hi])
      rw [dif_neg hknown]

variable {s follow outer} in
lemma walk_cons_of_new {id : String} {rest : List String} {seen : Roll} {i : Instruction}
    (hout : outer id = false) (hi : s.get? id = some i) (hnew : seen.place? id = none) :
    walk s follow outer (id :: rest) seen =
      walk s follow outer (follow i ++ rest) (seen.push id () hnew) := by
  rw [walk, if_neg (by simp [hout])]
  split
  · rename_i hnone
    exact absurd (hi.symm.trans hnone) (by simp)
  · rename_i j hj
    obtain rfl : i = j := Option.some.inj (hi.symm.trans hj)
    rw [dif_pos hnew]

namespace Search

def start (roots : List String) : Search := ⟨roots, .empty, ∅⟩

def next? : Search → Option Search
  | ⟨[], _, _⟩ => none
  | ⟨id :: rest, listed, met⟩ =>
    if outer id then some ⟨rest, listed, met ∪ .ofList [id]⟩
    else match s.get? id with
      | none => some ⟨rest, listed, met⟩
      | some i =>
        if h : listed.place? id = none then some ⟨follow i ++ rest, listed.push id () h, met⟩
        else some ⟨rest, listed, met⟩

def run : (rounds : ℕ) → Search → Option Search
  | 0, a => some a
  | rounds + 1, a => (a.next? s follow outer).bind (run rounds)

/-- The references that are still to come, with one more for each instruction that is not listed. -/
def weight (a : Search) : ℕ := a.pending.length + unlisted s follow a.listed

variable {s follow outer} {a b : Search}

/-! ### One round -/

lemma next?_eq_none_iff : a.next? s follow outer = none ↔ a.pending = [] := by
  obtain ⟨pending, listed, met⟩ := a
  cases pending with
  | nil => simp [next?]
  | cons id rest =>
    simp only [next?, reduceCtorEq, iff_false]
    split
    · simp
    · split
      · simp
      · split <;> simp

/-- What a round can do with the first pending reference: turn back, pass over it, or list it. -/
lemma next?_cases (h : a.next? s follow outer = some b) :
    ∃ id rest, a.pending = id :: rest ∧
      ((outer id = true ∧ b = ⟨rest, a.listed, a.met ∪ .ofList [id]⟩) ∨
        (outer id = false ∧ (s.get? id = none ∨ a.listed.place? id ≠ none) ∧
          b = ⟨rest, a.listed, a.met⟩) ∨
        (outer id = false ∧ ∃ i, ∃ hnew : a.listed.place? id = none, s.get? id = some i ∧
          b = ⟨follow i ++ rest, a.listed.push id () hnew, a.met⟩)) := by
  obtain ⟨pending, listed, met⟩ := a
  cases pending with
  | nil => cases h
  | cons id rest =>
    refine ⟨id, rest, rfl, ?_⟩
    simp only [next?] at h
    split at h
    · cases h
      exact .inl ⟨‹_›, rfl⟩
    · rename_i hout
      rw [Bool.not_eq_true] at hout
      split at h
      · rename_i hi
        cases h
        exact .inr (.inl ⟨hout, .inl hi, rfl⟩)
      · rename_i i hi
        split at h
        · rename_i hnew
          cases h
          exact .inr (.inr ⟨hout, i, hnew, hi, rfl⟩)
        · rename_i hknown
          cases h
          exact .inr (.inl ⟨hout, .inr hknown, rfl⟩)

/-- **Every round makes a search lighter.** -/
theorem weight_lt_of_next? (h : a.next? s follow outer = some b) :
    b.weight s follow < a.weight s follow := by
  obtain ⟨id, rest, hpending, ⟨-, rfl⟩ | ⟨-, -, rfl⟩ | ⟨-, i, hnew, hi, rfl⟩⟩ := next?_cases h
  · simp [weight, hpending]
  · simp [weight, hpending]
  · have hless := unlisted_push_add_le follow hnew hi
    simp only [weight, hpending, List.length_append, List.length_cons]
    omega

lemma walk_of_next? (h : a.next? s follow outer = some b) :
    walk s follow outer b.pending b.listed = walk s follow outer a.pending a.listed := by
  obtain ⟨id, rest, hpending, hcases⟩ := next?_cases h
  rw [hpending]
  obtain ⟨hout, rfl⟩ | ⟨-, hpass, rfl⟩ | ⟨hout, i, hnew, hi, rfl⟩ := hcases
  · exact (walk_cons_of_outer hout).symm
  · exact (walk_cons_of_pass hpass).symm
  · exact (walk_cons_of_new hout hi hnew).symm

variable (s follow outer) in
/-- The books of a search: what it has done, and what it has still to do, is what the ids that it
has listed give it to do; and it remembers the outer ids that it has met. -/
structure Account (roots done : List String) (a : Search) : Prop where
  perm : (done ++ a.pending).Perm (takenUp s follow roots a.listed)
  mem_met : ∀ x, x ∈ a.met ↔ x ∈ done ∧ outer x = true

lemma Account.start (roots : List String) : Account s follow outer roots [] (start roots) where
  perm := by simp [Search.start, takenUp, Roster.keys]
  mem_met x := by
    simp only [Search.start, List.not_mem_nil, false_and, iff_false]
    exact List.not_mem_nil

lemma takenUp_push {roots : List String} {listed : Roll} {id : String} {i : Instruction}
    (hnew : listed.place? id = none) (hi : s.get? id = some i) :
    takenUp s follow roots (listed.push id () hnew) =
      takenUp s follow roots listed ++ follow i := by
  simp [takenUp, Roster.keys_push, referencesBy, hi]

lemma Account.next? {roots done : List String} (ha : Account s follow outer roots done a)
    (h : a.next? s follow outer = some b) :
    ∃ id, Account s follow outer roots (done ++ [id]) b := by
  obtain ⟨id, rest, hpending, hcases⟩ := next?_cases h
  have hperm := ha.perm
  rw [hpending, List.append_cons] at hperm
  refine ⟨id, ?_⟩
  obtain ⟨hout, rfl⟩ | ⟨hout, -, rfl⟩ | ⟨hout, i, hnew, hi, rfl⟩ := hcases
  · refine ⟨hperm, fun x => ?_⟩
    rw [NameSet.mem_union, ha.mem_met, NameSet.mem_ofList, List.mem_append, List.mem_singleton]
    constructor
    · rintro (⟨hx, hxout⟩ | rfl)
      · exact ⟨.inl hx, hxout⟩
      · exact ⟨.inr rfl, hout⟩
    · rintro ⟨hx | rfl, hxout⟩
      · exact .inl ⟨hx, hxout⟩
      · exact .inr rfl
  all_goals
    have hmet : ∀ x, x ∈ a.met ↔ x ∈ done ++ [id] ∧ outer x = true := by
      intro x
      rw [ha.mem_met, List.mem_append, List.mem_singleton]
      refine and_congr_left fun hxout => (or_iff_left ?_).symm
      rintro rfl
      exact absurd (hout.symm.trans hxout) (by simp)
  · exact ⟨hperm, hmet⟩
  · refine ⟨?_, hmet⟩
    rw [takenUp_push hnew hi]
    have hswap : (done ++ [id] ++ (follow i ++ rest)).Perm (done ++ [id] ++ rest ++ follow i) := by
      rw [List.append_assoc _ rest]
      exact List.perm_append_comm.append_left _
    exact hswap.trans (hperm.append_right _)

/-! ### All rounds -/

lemma walk_of_run {n : ℕ} (h : a.run s follow outer n = some b) :
    walk s follow outer b.pending b.listed = walk s follow outer a.pending a.listed := by
  induction n generalizing a with
  | zero =>
    obtain rfl := Option.some.inj h
    rfl
  | succ n ih =>
    obtain ⟨c, hc, h⟩ := Option.bind_eq_some_iff.1 h
    exact (ih h).trans (walk_of_next? hc)

lemma Account.run {n : ℕ} {roots done : List String} (ha : Account s follow outer roots done a)
    (h : a.run s follow outer n = some b) :
    ∃ more, more.length = n ∧ Account s follow outer roots (done ++ more) b := by
  induction n generalizing a done with
  | zero =>
    obtain rfl := Option.some.inj h
    exact ⟨[], rfl, by rwa [List.append_nil]⟩
  | succ n ih =>
    obtain ⟨c, hc, h⟩ := Option.bind_eq_some_iff.1 h
    obtain ⟨id, hnext⟩ := ha.next? hc
    obtain ⟨more, hlength, hrun⟩ := ih hnext h
    exact ⟨id :: more, by rw [List.length_cons, hlength], by rwa [← List.append_cons] at hrun⟩

variable (s follow outer) in
lemma exists_run (a : Search) : ∃ n b, a.run s follow outer n = some b ∧ b.pending = [] := by
  induction hk : a.weight s follow using Nat.strongRecOn generalizing a with
  | _ k ih =>
    cases hnext : a.next? s follow outer with
    | none => exact ⟨0, a, rfl, next?_eq_none_iff.1 hnext⟩
    | some c =>
      obtain ⟨n, b, hrun, hend⟩ := ih _ (hk ▸ weight_lt_of_next? hnext) c rfl
      exact ⟨n + 1, b, Option.bind_eq_some_iff.2 ⟨c, hnext, hrun⟩, hend⟩

variable (s follow outer) in
/-- **How a search ends**: after one round for every reference to be taken up, with what the walk
lists and with the outer ids among the references. -/
theorem run_start (roots : List String) :
    (start roots).run s follow outer
        (takenUp s follow roots (walk s follow outer roots .empty)).length =
      some ⟨[], walk s follow outer roots .empty,
        .ofList ((takenUp s follow roots (walk s follow outer roots .empty)).filter outer)⟩ := by
  obtain ⟨n, ⟨pending, listed, met⟩, hrun, rfl⟩ := exists_run s follow outer (start roots)
  obtain ⟨done, hlength, hdone⟩ := (Account.start roots).run hrun
  have hlisted : listed = walk s follow outer roots .empty := by
    have hwalk := walk_of_run hrun
    rwa [walk] at hwalk
  have hperm := hdone.perm
  rw [List.nil_append, List.append_nil] at hperm
  have hmet : met = .ofList ((takenUp s follow roots listed).filter outer) := by
    refine NameSet.ext fun x => ?_
    rw [hdone.mem_met, NameSet.mem_ofList, List.mem_filter, List.nil_append, hperm.mem_iff]
  rw [← hlisted, ← hmet, ← hperm.length_eq, hlength]
  exact hrun

end Search

/-! ### The recursive visit -/

lemma walk_append (first second : List String) (seen : Roll) :
    walk s follow outer (first ++ second) seen =
      walk s follow outer second (walk s follow outer first seen) := by
  fun_induction walk s follow outer first seen with
  | case1 seen => rfl
  | case2 id rest seen hout ih =>
    rw [List.cons_append, walk_cons_of_outer hout]
    exact ih
  | case3 id rest seen hout hi ih =>
    rw [List.cons_append, walk_cons_of_pass (.inl hi)]
    exact ih
  | case4 id rest seen hout i hi h hlt ih =>
    rw [List.cons_append, walk_cons_of_new (by simpa using hout) hi h, ← List.append_assoc]
    exact ih
  | case5 id rest seen hout i hi h ih =>
    rw [List.cons_append, walk_cons_of_pass (.inr h)]
    exact ih

end

/-- Visit ids in a row: list an id that is registered and not listed yet, visit what it refers to,
and go on with the next one. What a visit has listed leaves less to list. -/
def visit (s : InstructionSet) : (ids : List String) → (seen : Roll) →
    { out : Roll // unlisted s Instruction.references out ≤ unlisted s Instruction.references seen }
  | [], seen => ⟨seen, Nat.le_refl _⟩
  | id :: rest, seen =>
    match hi : s.get? id with
    | none => visit s rest seen
    | some i =>
      if h : seen.place? id = none then
        have hless := unlisted_push_add_le Instruction.references h hi
        let ⟨below, hbelow⟩ := visit s i.references (seen.push id () h)
        let ⟨out, hout⟩ := visit s rest below
        ⟨out, by omega⟩
      else visit s rest seen
termination_by ids seen => ids.length + unlisted s Instruction.references seen
decreasing_by
  all_goals simp only [List.length_cons]; omega

def depthFirst (s : InstructionSet) (roots : List String) : List String :=
  (visit s roots .empty).1.keys

lemma visit_eq_walk (s : InstructionSet) (ids : List String) (seen : Roll) :
    (visit s ids seen).1 = walk s Instruction.references (fun _ => false) ids seen := by
  fun_induction visit s ids seen with
  | case1 seen => rw [walk]
  | case2 id rest seen hi ih =>
    rw [walk_cons_of_pass (.inl hi)]
    exact ih
  | case3 id rest seen i hi h _ below _ hbelow out _ hout ihbelow ihout =>
    rw [hbelow] at ihbelow
    rw [hout] at ihout
    calc out = walk s Instruction.references (fun _ => false) rest below := ihout
      _ = walk s Instruction.references (fun _ => false) (i.references ++ rest)
          (seen.push id () h) := by rw [walk_append, ← ihbelow]
      _ = walk s Instruction.references (fun _ => false) (id :: rest) seen :=
        (walk_cons_of_new rfl hi h).symm
  | case4 id rest seen i hi h ih =>
    rw [walk_cons_of_pass (.inr h)]
    exact ih

lemma keys_reachable (s : InstructionSet) (roots : List String) :
    (reachable s roots).keys = depthFirst s roots :=
  congrArg Roster.keys (visit_eq_walk s roots .empty).symm

/-! ### What is reachable -/

def Joined (s : InstructionSet) (a b : String) : Prop := s.LeadsTo a b ∧ b ∈ s.ids

lemma reachable_iff_exists_path {s : InstructionSet} {roots : List String} {id : String} :
    Reachable s roots id ↔ ∃ r ∈ roots, r ∈ s.ids ∧ Relation.ReflTransGen (Joined s) r id := by
  constructor
  · intro h
    induction h with
    | root hr _ hi => exact ⟨_, hr, InstructionSet.mem_ids_iff.2 ⟨_, hi⟩, .refl⟩
    | step _ hi href _ hi' ih =>
      obtain ⟨r, hr, hreg, hpath⟩ := ih
      exact ⟨r, hr, hreg, hpath.tail
        ⟨⟨_, hi, Instruction.mem_references.1 href⟩, InstructionSet.mem_ids_iff.2 ⟨_, hi'⟩⟩⟩
  · rintro ⟨r, hr, hreg, hpath⟩
    obtain ⟨i, hi⟩ := InstructionSet.mem_ids_iff.1 hreg
    induction hpath with
    | refl => exact .root hr rfl hi
    | tail _ hstep ih =>
      obtain ⟨⟨j, hj, href⟩, hreg'⟩ := hstep
      obtain ⟨k, hk⟩ := InstructionSet.mem_ids_iff.1 hreg'
      exact .step ih hj (Instruction.mem_references.2 href) rfl hk

/-- **Reachable instructions are found, each once, in depth-first order**, whatever the references
are like. The search is over after one round for every root and every reference of an instruction
that it lists. It has then listed the registered ids to which a path of registered instructions
leads from a root, in the order of the recursive visit. -/
theorem reachable_listed_depthFirst (s : InstructionSet) (roots : List String) :
    (∃ a, (Search.start roots).run s Instruction.references (fun _ => false)
        (takenUp s Instruction.references roots (reachable s roots)).length = some a ∧
      a.next? s Instruction.references (fun _ => false) = none ∧ a.listed = reachable s roots) ∧
    (reachable s roots).keys.Nodup ∧
    (∀ id, id ∈ (reachable s roots).keys ↔
      ∃ r ∈ roots, r ∈ s.ids ∧ Relation.ReflTransGen (Joined s) r id) ∧
    (reachable s roots).keys = depthFirst s roots := by
  refine ⟨?_, (reachable s roots).nodup_keys, fun id => ?_, keys_reachable s roots⟩
  · exact ⟨_, Search.run_start s Instruction.references (fun _ => false) roots,
      Search.next?_eq_none_iff.2 rfl, rfl⟩
  · rw [mem_reachable_iff, reachable_iff_exists_path]

/-- Arms before what is left of the roots, a circle through an arm, a repeated root and an id that
nothing is registered for. -/
example : depthFirst ((InstructionSet.empty.addAll [
      ⟨"last", .ofList ["b"], .abort⟩,
      ⟨"a", .ofList ["first", "gone"], .branch (.var "c") (.ofList ["b", "first"]) (.ofList ["z"])⟩,
      ⟨"b", .ofList ["y"], .branch (.var "c") (.ofList ["a"]) (.ofList ["last"])⟩,
      ⟨"first", ∅, .abort⟩, ⟨"y", .ofList ["y"], .abort⟩,
      ⟨"z", ∅, .abort⟩]).toOption.getD .empty) ["gone", "a", "y", "a"] =
    ["a", "first", "b", "y", "last", "z"] := by
  decide +kernel

end TimeMarch.Graph
