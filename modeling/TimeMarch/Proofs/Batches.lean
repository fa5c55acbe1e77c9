import TimeMarch.Proofs.FreshNames
import TimeMarch.Proofs.Reachability
import TimeMarch.Proofs.Success

/-!
# Batches of Instructions

A batch is registered as a whole or not at all. The ids that it gives are checked before anything is
put into the set. The other ids are made up so that they clash neither with the set nor with the ids
that are given, also not with those that come later in the batch, nor with each other. So behind the
check nothing can go wrong any more, and a set that is filled in place is never left half filled.
-/

namespace TimeMarch

namespace InstructionSet

/-! ### Registering under a new id -/

section

variable {s t : InstructionSet} {i : Instruction}

lemma ids_push (h : s.roster.place? i.id = none) : (s.push i h).ids = s.ids ++ [i.id] :=
  Roster.keys_push s.roster i.id i h

lemma get?_push (h : s.roster.place? i.id = none) (id : String) :
    (s.push i h).get? id = if i.id = id then some i else s.get? id :=
  Roster.get?_push s.roster i.id i h id

lemma map_id_toList (s : InstructionSet) : s.toList.map Instruction.id = s.ids := by
  rw [toList, Roster.values, List.map_map]
  exact List.map_congr_left s.id_eq

lemma length_toList (s : InstructionSet) : s.toList.length = s.size := by
  simp [toList, Roster.values, Roster.toList, size, Roster.size]

lemma rank?_of_getElem? {k : ℕ} (h : s.toList[k]? = some i) : s.rank? i.id = some k := by
  rw [toList, Roster.values, List.getElem?_map, Option.map_eq_some_iff] at h
  obtain ⟨e, he, rfl⟩ := h
  rw [s.id_eq e (List.mem_of_getElem? he)]
  exact (Roster.place?_eq_some_iff _ _ _).2 ⟨e.2, he⟩

lemma toList_add (h : s.add i = .ok t) : t.toList = s.toList ++ [i] := by
  unfold add at h
  split at h
  · obtain rfl := Except.ok.inj h
    simp [toList, Roster.values, push]
  · cases h

lemma toList_addAll {l : List Instruction} (h : s.addAll l = .ok t) :
    t.toList = s.toList ++ l := by
  refine foldlM_induction (P := fun done (u : InstructionSet) => u.toList = s.toList ++ done)
    ?_ (by simp) h
  intro done u i u' hu hi
  rw [toList_add hi, hu, List.append_assoc]

/-- Put the instructions of a list into the set one after the other, until an id is taken. The set
is returned as far as it was filled. -/
def append : List Instruction → InstructionSet → Except BuildError Unit × InstructionSet
  | [], s => (.ok (), s)
  | i :: rest, s =>
    if h : s.roster.place? i.id = none then append rest (s.push i h)
    else (.error (.duplicateId i.id), s)

lemma exists_addAll {l : List Instruction} (hnodup : (l.map Instruction.id).Nodup)
    (hnew : ∀ i ∈ l, i.id ∉ s.ids) : ∃ t, s.addAll l = .ok t ∧ append l s = (.ok (), t) := by
  induction l generalizing s with
  | nil => exact ⟨s, rfl, rfl⟩
  | cons i l ih =>
    rw [List.map_cons, List.nodup_cons] at hnodup
    have hplace : s.roster.place? i.id = none :=
      (Roster.place?_eq_none_iff _ _).2 (hnew i List.mem_cons_self)
    obtain ⟨t, hadd, happend⟩ := ih (s := s.push i hplace) hnodup.2 fun j hj hmem => by
      rw [ids_push, List.mem_append, List.mem_singleton] at hmem
      rcases hmem with hmem | heq
      · exact hnew j (List.mem_cons_of_mem _ hj) hmem
      · exact hnodup.1 (heq ▸ List.mem_map_of_mem hj)
    refine ⟨t, ?_, ?_⟩
    · rw [addAll, List.foldlM_cons, add, dif_pos hplace]
      exact hadd
    · rw [append, dif_pos hplace]
      exact happend

end

/-! ### The check -/

section

variable (s : InstructionSet)

def checkId (given : Std.TreeSet String) (i : Instruction) :
    Except BuildError (Std.TreeSet String) := do
  if s.contains i.id || given.contains i.id then throw (.duplicateId i.id)
  if i.id ∈ i.dependsOn then throw (.selfDependency i.id)
  return given.insert i.id

lemma givenIds_eq (batch : List Instruction) :
    s.givenIds batch = (batch.filter Instruction.hasId).foldlM s.checkId ∅ :=
  rfl

variable {s} {given : Std.TreeSet String} {i : Instruction} {l : List Instruction}

lemma taken_iff {n : String} :
    (s.contains n || given.contains n) = true ↔ n ∈ s.ids ∨ n ∈ given := by
  rw [Bool.or_eq_true, contains_iff, Std.TreeSet.contains_iff_mem]

lemma checkId_of_taken (h : i.id ∈ s.ids ∨ i.id ∈ given) :
    s.checkId given i = .error (.duplicateId i.id) := by
  rw [checkId, if_pos (taken_iff.2 h)]
  rfl

lemma checkId_of_self (h : ¬(i.id ∈ s.ids ∨ i.id ∈ given)) (hself : i.id ∈ i.dependsOn) :
    s.checkId given i = .error (.selfDependency i.id) := by
  rw [checkId, if_neg (taken_iff.not.2 h), if_pos hself]
  rfl

lemma checkId_of_new (h : ¬(i.id ∈ s.ids ∨ i.id ∈ given)) (hself : i.id ∉ i.dependsOn) :
    s.checkId given i = .ok (given.insert i.id) := by
  rw [checkId, if_neg (taken_iff.not.2 h), if_neg hself]
  rfl

lemma mem_insert_iff {n m : String} : n ∈ given.insert m ↔ n = m ∨ n ∈ given := by
  rw [Std.TreeSet.mem_insert, Std.LawfulEqCmp.compare_eq_iff_eq, eq_comm]

lemma checkId_eq_ok {all : Std.TreeSet String} : s.checkId given i = .ok all ↔
    (¬(i.id ∈ s.ids ∨ i.id ∈ given) ∧ i.id ∉ i.dependsOn) ∧ given.insert i.id = all := by
  by_cases htaken : i.id ∈ s.ids ∨ i.id ∈ given
  · simp [checkId_of_taken htaken, htaken]
  · by_cases hself : i.id ∈ i.dependsOn
    · simp [checkId_of_self htaken hself, hself]
    · simp [checkId_of_new htaken hself, htaken, hself]

lemma mem_of_foldlM_checkId {all : Std.TreeSet String} (h : l.foldlM s.checkId given = .ok all)
    {n : String} : n ∈ all ↔ n ∈ given ∨ n ∈ l.map Instruction.id := by
  refine foldlM_induction (P := fun done (all : Std.TreeSet String) =>
    n ∈ all ↔ n ∈ given ∨ n ∈ done.map Instruction.id) ?_ (by simp) h
  intro done noted i noted' hnoted hi
  obtain ⟨-, rfl⟩ := checkId_eq_ok.1 hi
  rw [mem_insert_iff, hnoted, List.map_append, List.mem_append, List.map_singleton,
    List.mem_singleton]
  tauto

/-- **The check is passed** by ids that are new and distinct and on which their instructions do not
depend. -/
lemma exists_foldlM_checkId_iff : (∃ all, l.foldlM s.checkId given = .ok all) ↔
    (l.map Instruction.id).Nodup ∧
      ∀ i ∈ l, ¬(i.id ∈ s.ids ∨ i.id ∈ given) ∧ i.id ∉ i.dependsOn := by
  induction l generalizing given with
  | nil => simp [pure, Except.pure]
  | cons i l ih =>
    have hcons : (∃ all, (i :: l).foldlM s.checkId given = .ok all) ↔
        (¬(i.id ∈ s.ids ∨ i.id ∈ given) ∧ i.id ∉ i.dependsOn) ∧
          ∃ all, l.foldlM s.checkId (given.insert i.id) = .ok all := by
      simp only [List.foldlM_cons, bind_eq_ok, checkId_eq_ok]
      constructor
      · rintro ⟨all, _, ⟨hi, rfl⟩, hall⟩
        exact ⟨hi, all, hall⟩
      · rintro ⟨hi, all, hall⟩
        exact ⟨all, _, ⟨hi, rfl⟩, hall⟩
    rw [hcons, ih, List.map_cons, List.nodup_cons, List.forall_mem_cons]
    simp only [mem_insert_iff, List.mem_map]
    constructor
    · rintro ⟨hi, hnodup, hl⟩
      refine ⟨⟨fun ⟨j, hj, heq⟩ => (hl j hj).1 (.inr (.inl heq)), hnodup⟩, hi, fun j hj => ?_⟩
      exact ⟨fun htaken => (hl j hj).1 (htaken.imp_right .inr), (hl j hj).2⟩
    · rintro ⟨⟨hnew, hnodup⟩, hi, hl⟩
      refine ⟨hi, hnodup, fun j hj => ⟨?_, (hl j hj).2⟩⟩
      rintro (hin | heq | hin)
      · exact (hl j hj).1 (.inl hin)
      · exact hnew ⟨j, hj, heq⟩
      · exact (hl j hj).1 (.inr hin)

/-- **The check fails for a clash** if one is met no later than a dependency on itself. -/
lemma exists_foldlM_checkId_eq_duplicateId_iff :
    (∃ id, l.foldlM s.checkId given = .error (.duplicateId id)) ↔
      ∃ earlier i later, l = earlier ++ i :: later ∧
        ((i.id ∈ s.ids ∨ i.id ∈ given) ∨ i.id ∈ earlier.map Instruction.id) ∧
        ∀ e ∈ earlier, e.id ∉ e.dependsOn := by
  induction l generalizing given with
  | nil => simp [pure, Except.pure]
  | cons a l ih =>
    rw [List.foldlM_cons]
    by_cases htaken : a.id ∈ s.ids ∨ a.id ∈ given
    · rw [checkId_of_taken htaken]
      exact ⟨fun _ => ⟨[], a, l, rfl, .inl htaken, by simp⟩, fun _ => ⟨a.id, rfl⟩⟩
    · -- the first instruction does not clash, so it is one of the earlier ones
      have hsplit : (∃ earlier i later, a :: l = earlier ++ i :: later ∧
            ((i.id ∈ s.ids ∨ i.id ∈ given) ∨ i.id ∈ earlier.map Instruction.id) ∧
            ∀ e ∈ earlier, e.id ∉ e.dependsOn) ↔
          a.id ∉ a.dependsOn ∧ ∃ earlier i later, l = earlier ++ i :: later ∧
            ((i.id ∈ s.ids ∨ i.id ∈ given.insert a.id) ∨ i.id ∈ earlier.map Instruction.id) ∧
            ∀ e ∈ earlier, e.id ∉ e.dependsOn := by
        simp only [mem_insert_iff]
        constructor
        · rintro ⟨_ | ⟨b, earlier⟩, i, later, heq, hclash, hearlier⟩
          · obtain ⟨rfl, -⟩ := List.cons.inj heq
            exact absurd (hclash.resolve_right (by simp)) htaken
          · obtain ⟨rfl, rfl⟩ := List.cons.inj heq
            rw [List.forall_mem_cons] at hearlier
            rw [List.map_cons, List.mem_cons] at hclash
            exact ⟨hearlier.1, earlier, i, later, rfl, by tauto, hearlier.2⟩
        · rintro ⟨ha, earlier, i, later, rfl, hclash, hearlier⟩
          refine ⟨a :: earlier, i, later, rfl, ?_, List.forall_mem_cons.2 ⟨ha, hearlier⟩⟩
          rw [List.map_cons, List.mem_cons]
          tauto
      rw [hsplit]
      by_cases hself : a.id ∈ a.dependsOn
      · rw [checkId_of_self htaken hself]
        exact ⟨fun ⟨_, heq⟩ => (by cases heq), fun ⟨ha, _⟩ => absurd hself ha⟩
      · rw [checkId_of_new htaken hself, ← ih]
        exact ⟨fun h => ⟨hself, h⟩, fun h => h.2⟩

end

/-! ### Names for the others -/

section

variable (s : InstructionSet)

def freshName (taken : Std.TreeSet String) (stem : String) : String :=
  Name.fresh (fun n => s.contains n || taken.contains n) (s.size + taken.size) stem

/-- The instructions of a batch under ids of their own, where the given names are taken. -/
def nameAll : Std.TreeSet String → List Instruction → List Instruction
  | _, [] => []
  | taken, i :: rest =>
    if i.hasId then i :: nameAll taken rest
    else
      let id := s.freshName taken i.action.tag
      { i with id } :: nameAll (taken.insert id) rest

lemma named_eq (taken : Std.TreeSet String) (batch : List Instruction) :
    (s.named taken batch).toList = s.nameAll taken batch := by
  -- one round of the fold
  let name (b : Std.TreeSet String × Array Instruction) (i : Instruction) :=
    if i.hasId then (b.1, b.2.push i)
    else
      let id := s.freshName b.1 i.action.tag
      (b.1.insert id, b.2.push { i with id })
  have hfold : ∀ b, (batch.foldl name b).2.toList = b.2.toList ++ s.nameAll b.1 batch := by
    induction batch with
    | nil => simp [nameAll]
    | cons i batch ih =>
      intro b
      rw [List.foldl_cons, ih, nameAll]
      by_cases hid : i.hasId = true
      · simp [name, hid]
      · simp [name, hid]
  exact hfold (taken, #[])

variable {s} {taken : Std.TreeSet String}

variable (s taken) in
lemma firstFree_freshName (stem : String) :
    Name.FirstFree (fun n => n ∈ s.ids ∨ n ∈ taken) stem (s.freshName taken stem) := by
  simp only [← taken_iff]
  refine Name.firstFree_fresh (fun n => s.contains n || taken.contains n) stem fun l hnodup hl => ?_
  have hsub : l ⊆ s.ids ++ taken.toList := by
    intro n hn
    rw [List.mem_append, Std.TreeSet.mem_toList]
    exact taken_iff.1 (hl n hn)
  have hle := (hnodup.subperm hsub).length_le
  rwa [List.length_append, ids, Roster.length_keys, Std.TreeSet.length_toList] at hle

variable (s taken) in
lemma freshName_new (stem : String) :
    ¬(s.freshName taken stem ∈ s.ids ∨ s.freshName taken stem ∈ taken) :=
  (s.firstFree_freshName taken stem).free

lemma tag_ne_empty (a : Action) : a.tag ≠ "" := by
  cases a <;> simp [Action.tag]

variable (s taken) in
lemma numbered_freshName (stem : String) : Name.Numbered stem (s.freshName taken stem) :=
  Name.fresh_numbered _ stem _

lemma freshName_ne_empty {stem : String} (h : stem ≠ "") : s.freshName taken stem ≠ "" := by
  obtain heq | ⟨k, heq⟩ := s.numbered_freshName taken stem
  · rwa [heq]
  · rw [heq]
    simp [h]

variable {batch : List Instruction}

variable (s taken) in
lemma getElem?_nameAll {k : ℕ} {i : Instruction} (h : batch[k]? = some i) :
    ∃ j, (s.nameAll taken batch)[k]? = some j ∧ j = { i with id := j.id } ∧
      (i.hasId = true → j.id = i.id) := by
  induction batch generalizing taken k with
  | nil => cases h
  | cons a batch ih =>
    rw [nameAll]
    cases k with
    | zero =>
      obtain rfl : a = i := Option.some.inj h
      by_cases hid : a.hasId = true
      · exact ⟨a, by simp [hid], rfl, fun _ => rfl⟩
      · exact ⟨{ a with id := s.freshName taken a.action.tag }, by simp [hid], rfl,
          fun h => absurd h hid⟩
    | succ k =>
      by_cases hid : a.hasId = true
      · simpa [hid] using ih taken h
      · simpa [hid] using ih (taken.insert (s.freshName taken a.action.tag)) h

lemma length_nameAll : (s.nameAll taken batch).length = batch.length := by
  induction batch generalizing taken with
  | nil => rfl
  | cons i batch ih =>
    rw [nameAll]
    split <;> simp [ih]

/-- **Names are distinct and new**, if the ids that the batch gives are and have been noted. A name
that was taken before is one that the batch gives. -/
theorem nameAll_new (hnodup : ((batch.filter Instruction.hasId).map Instruction.id).Nodup)
    (hgiven : ∀ i ∈ batch.filter Instruction.hasId, i.id ∉ s.ids ∧ i.id ∈ taken) :
    ((s.nameAll taken batch).map Instruction.id).Nodup ∧
      ∀ id ∈ (s.nameAll taken batch).map Instruction.id, id ≠ "" ∧ id ∉ s.ids ∧
        (id ∈ taken → id ∈ (batch.filter Instruction.hasId).map Instruction.id) := by
  induction batch generalizing taken with
  | nil => simp [nameAll]
  | cons i batch ih =>
    rw [nameAll]
    by_cases hid : i.hasId = true
    · rw [List.filter_cons_of_pos hid, List.map_cons, List.nodup_cons] at hnodup
      rw [List.filter_cons_of_pos hid, List.forall_mem_cons] at hgiven
      obtain ⟨hrest, hnew⟩ := ih hnodup.2 hgiven.2
      rw [if_pos hid, List.filter_cons_of_pos hid, List.map_cons, List.map_cons, List.nodup_cons,
        List.forall_mem_cons]
      -- the id is noted, so no other instruction has got it
      refine ⟨⟨fun hmem => hnodup.1 ((hnew i.id hmem).2.2 hgiven.1.2), hrest⟩, ?_, ?_⟩
      · exact ⟨by simpa [Instruction.hasId] using hid, hgiven.1.1, fun _ => List.mem_cons_self⟩
      · intro id hmem
        obtain ⟨hne, hnot, htaken⟩ := hnew id hmem
        exact ⟨hne, hnot, fun h => List.mem_cons_of_mem _ (htaken h)⟩
    · rw [List.filter_cons_of_neg hid] at hnodup hgiven ⊢
      have hfresh := s.freshName_new taken i.action.tag
      rw [not_or] at hfresh
      have hnoted : ∀ j ∈ batch.filter Instruction.hasId,
          j.id ∉ s.ids ∧ j.id ∈ taken.insert (s.freshName taken i.action.tag) :=
        fun j hj => ⟨(hgiven j hj).1, mem_insert_iff.2 (.inr (hgiven j hj).2)⟩
      obtain ⟨hrest, hnew⟩ := ih hnodup hnoted
      rw [if_neg hid, List.map_cons, List.nodup_cons, List.forall_mem_cons]
      refine ⟨⟨fun hmem => ?_, hrest⟩, ?_, ?_⟩
      · -- the new name would be one that the batch gives, and these were taken
        have hmem' := (hnew _ hmem).2.2 (mem_insert_iff.2 (.inl rfl))
        obtain ⟨j, hj, heq⟩ := List.mem_map.1 hmem'
        have heq : j.id = s.freshName taken i.action.tag := heq
        exact hfresh.2 (heq ▸ (hgiven j hj).2)
      · exact ⟨freshName_ne_empty (tag_ne_empty _), hfresh.1, fun h => absurd h hfresh.2⟩
      · intro id hmem
        obtain ⟨hne, hnot, htaken⟩ := hnew id hmem
        exact ⟨hne, hnot, fun h => htaken (mem_insert_iff.2 (.inr h))⟩

end

/-! ### The batch as a whole -/

/-- Register a batch in place: what the caller is told, and what becomes of the set. -/
def submit (s : InstructionSet) (batch : List Instruction) :
    Except BuildError (List String) × InstructionSet :=
  match s.givenIds batch with
  | .error e => (.error e, s)
  | .ok given =>
    let batch := (s.named given batch).toList
    let (result, s) := append batch s
    (result.map fun _ => batch.map Instruction.id, s)

/-- The instructions of the batch stand in their order behind those that were there, each under its
own new id and otherwise unchanged. -/
structure Extends (s : InstructionSet) (batch : List Instruction) (ids : List String)
    (s' : InstructionSet) : Prop where
  length : ids.length = batch.length
  nodup : ids.Nodup
  new : ∀ id ∈ ids, id ≠ "" ∧ id ∉ s.ids
  given : ∀ (k : ℕ) i, batch[k]? = some i → i.hasId = true → ids[k]? = some i.id
  ids_eq : s'.ids = s.ids ++ ids
  kept : ∀ id ∈ s.ids, s'.get? id = s.get? id ∧ s'.rank? id = s.rank? id
  added : ∀ (k : ℕ) i id, batch[k]? = some i → ids[k]? = some id →
    s'.get? id = some { i with id } ∧ s'.rank? id = some (s.size + k)

section

variable {s s' : InstructionSet} {batch : List Instruction} {given : Std.TreeSet String}

lemma kept_of_toList {more : List Instruction} (h : s'.toList = s.toList ++ more) {id : String}
    (hid : id ∈ s.ids) : s'.get? id = s.get? id ∧ s'.rank? id = s.rank? id := by
  rw [← map_id_toList, List.mem_map] at hid
  obtain ⟨i, hi, rfl⟩ := hid
  obtain ⟨k, hk⟩ := List.mem_iff_getElem?.1 hi
  have hk' : s'.toList[k]? = some i := by
    rw [h, List.getElem?_append_left (List.getElem?_eq_some_iff.1 hk).1, hk]
  rw [get?_of_mem_toList hi, get?_of_mem_toList (List.mem_of_getElem? hk'), rank?_of_getElem? hk,
    rank?_of_getElem? hk']
  exact ⟨rfl, rfl⟩

lemma added_of_toList {more : List Instruction} (h : s'.toList = s.toList ++ more) {k : ℕ}
    {j : Instruction} (hj : more[k]? = some j) :
    s'.get? j.id = some j ∧ s'.rank? j.id = some (s.size + k) := by
  have hk : s'.toList[s.size + k]? = some j := by
    rw [h, ← length_toList, List.getElem?_append_right (Nat.le_add_right _ _),
      Nat.add_sub_cancel_left, hj]
  exact ⟨get?_of_mem_toList (List.mem_of_getElem? hk), rank?_of_getElem? hk⟩

lemma extends_of_toList (h : s'.toList = s.toList ++ s.nameAll given batch)
    (hnodup : ((s.nameAll given batch).map Instruction.id).Nodup)
    (hnew : ∀ id ∈ (s.nameAll given batch).map Instruction.id, id ≠ "" ∧ id ∉ s.ids) :
    s.Extends batch ((s.nameAll given batch).map Instruction.id) s' where
  length := by rw [List.length_map, length_nameAll]
  nodup := hnodup
  new := hnew
  given k i hi hid := by
    obtain ⟨j, hj, -, hsame⟩ := getElem?_nameAll s given hi
    rw [List.getElem?_map, hj, Option.map_some, hsame hid]
  ids_eq := by rw [← map_id_toList, h, List.map_append, map_id_toList]
  kept id hid := kept_of_toList h hid
  added k i id hi hid := by
    obtain ⟨j, hj, hsame, -⟩ := getElem?_nameAll s given hi
    rw [List.getElem?_map, hj, Option.map_some, Option.some.injEq] at hid
    subst hid
    rw [← hsame]
    exact added_of_toList h hj

lemma exists_extends_of_givenIds (h : s.givenIds batch = .ok given) :
    ∃ ids s', s.register batch = .ok (ids, s') ∧ s.submit batch = (.ok ids, s') ∧
      s.Extends batch ids s' := by
  have hcheck := h
  rw [givenIds_eq] at hcheck
  obtain ⟨hdistinct, hchecked⟩ := exists_foldlM_checkId_iff.1 ⟨given, hcheck⟩
  have hnoted : ∀ i ∈ batch.filter Instruction.hasId, i.id ∉ s.ids ∧ i.id ∈ given := fun i hi =>
    ⟨fun hin => (hchecked i hi).1 (.inl hin),
      (mem_of_foldlM_checkId hcheck).2 (.inr (List.mem_map_of_mem hi))⟩
  obtain ⟨hnodup, hnew⟩ := nameAll_new hdistinct hnoted
  obtain ⟨s', hadd, happend⟩ := exists_addAll (s := s) hnodup fun i hi =>
    (hnew i.id (List.mem_map_of_mem hi)).2.1
  refine ⟨(s.nameAll given batch).map Instruction.id, s', ?_, ?_, extends_of_toList
    (toList_addAll hadd) hnodup fun id hid => ⟨(hnew id hid).1, (hnew id hid).2.1⟩⟩
  · rw [register, h]
    simp [bind, Except.bind, named_eq, hadd, pure, Except.pure]
  · rw [submit, h]
    simp [named_eq, happend, Except.map]

lemma submit_of_givenIds_eq_error {e : BuildError} (h : s.givenIds batch = .error e) :
    s.register batch = .error e ∧ s.submit batch = (.error e, s) := by
  rw [register, submit, h]
  exact ⟨rfl, rfl⟩

lemma fst_submit_eq_error {e : BuildError} :
    (s.submit batch).1 = .error e ↔ s.givenIds batch = .error e := by
  cases h : s.givenIds batch with
  | error e' => simp [(submit_of_givenIds_eq_error h).2]
  | ok given =>
    obtain ⟨ids, s', -, hsubmit, -⟩ := exists_extends_of_givenIds h
    rw [hsubmit]
    exact ⟨fun h => (by cases h), fun h => (by cases h)⟩

lemma exists_fst_submit_eq_ok :
    (∃ ids, (s.submit batch).1 = .ok ids) ↔ ∃ given, s.givenIds batch = .ok given := by
  cases h : s.givenIds batch with
  | error e => simp [(submit_of_givenIds_eq_error h).2]
  | ok given =>
    obtain ⟨ids, s', -, hsubmit, -⟩ := exists_extends_of_givenIds h
    simp [hsubmit]

end

/-- **A batch is registered as a whole or not at all.** Take any set and any batch that is
registered in place.

If it is refused, the set is as before. Else the caller is told the ids in the order of the batch;
they are distinct and not empty and were not in use, ids that were given are kept, and the
instructions stand in this order behind those that were there, which are what and where they were.
A batch is accepted if the ids that it gives are new and distinct and no instruction depends on an
id that is given to it. It is refused for a clash if one is met, among the ids that are given, no
later than such a dependency. -/
theorem batch_registered_whole_or_not_at_all (s : InstructionSet) (batch : List Instruction) :
    let reply := (s.submit batch).1
    let s' := (s.submit batch).2
    s.register batch = reply.map (fun ids => (ids, s')) ∧
    (∀ e, reply = .error e → s' = s) ∧
    (∀ ids, reply = .ok ids → s.Extends batch ids s') ∧
    ((∃ ids, reply = .ok ids) ↔ ((batch.filter Instruction.hasId).map Instruction.id).Nodup ∧
      ∀ i ∈ batch.filter Instruction.hasId, i.id ∉ s.ids ∧ i.id ∉ i.dependsOn) ∧
    ((∃ id, reply = .error (.duplicateId id)) ↔ ∃ earlier i later,
      batch.filter Instruction.hasId = earlier ++ i :: later ∧
      (i.id ∈ s.ids ∨ i.id ∈ earlier.map Instruction.id) ∧
      ∀ e ∈ earlier, e.id ∉ e.dependsOn) := by
  intro reply s'
  have hnone : ∀ n : String, n ∉ (∅ : Std.TreeSet String) := by simp
  have hok : (∃ all, (batch.filter Instruction.hasId).foldlM s.checkId ∅ = .ok all) ↔ _ :=
    exists_foldlM_checkId_iff
  have hclash : (∃ id, (batch.filter Instruction.hasId).foldlM s.checkId ∅ =
    .error (.duplicateId id)) ↔ _ := exists_foldlM_checkId_eq_duplicateId_iff
  simp only [← givenIds_eq, hnone, or_false] at hok hclash
  rw [← exists_fst_submit_eq_ok] at hok
  simp only [← fst_submit_eq_error] at hclash
  cases h : s.givenIds batch with
  | error e =>
    obtain ⟨hregister, hsubmit⟩ := submit_of_givenIds_eq_error h
    refine ⟨?_, ?_, ?_, hok, hclash⟩
    all_goals simp [reply, s', hregister, hsubmit, Except.map]
  | ok given =>
    obtain ⟨ids, s'', hregister, hsubmit, hextends⟩ := exists_extends_of_givenIds h
    refine ⟨?_, ?_, ?_, hok, hclash⟩
    · simp [reply, s', hregister, hsubmit, Except.map]
    · simp [reply, hsubmit]
    · intro ids' hids'
      simp only [reply, hsubmit, Except.ok.injEq] at hids'
      subst hids'
      simpa [s', hsubmit] using hextends

/-- Names that are made up stay clear of an id that comes later in the batch. -/
example : (empty.submit [⟨"", ∅, .assign "x" (.var "<t>")⟩, ⟨"", ∅, .assign "y" (.var "<t>")⟩,
    ⟨"assign0", ∅, .abort⟩]).1.toOption = some ["assign", "assign1", "assign0"] := by
  decide +kernel

end InstructionSet

end TimeMarch
