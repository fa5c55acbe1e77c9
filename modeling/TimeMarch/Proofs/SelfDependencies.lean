import TimeMarch.Proofs.Batches

/-!
# Instructions That Depend on Themselves

Registration refuses an instruction that depends on the id it is given. An instruction without an id
gets one only behind that check: the first free name of its tag. If this very name is among its
dependencies it is registered all the same, and depends on itself. Nothing else leads there, however
a set was put together.
-/

namespace TimeMarch

/-- What registration makes of an instruction, which keeps all but its id. An id that is given has
been checked and is kept. Else the id is the tag of the action, alone or with a number behind it. -/
structure Instruction.Becomes (i j : Instruction) : Prop where
  eq : j = { i with id := j.id }
  given : i.hasId = true → j.id = i.id ∧ i.id ∉ i.dependsOn
  named : i.hasId = false → Name.Numbered i.action.tag j.id

lemma Instruction.Becomes.id_mem_dependsOn {i j : Instruction} (h : i.Becomes j) :
    j.id ∈ j.dependsOn ↔ i.hasId = false ∧ j.id ∈ i.dependsOn := by
  have hdepends : j.dependsOn = i.dependsOn := by rw [h.eq]
  rw [hdepends, iff_and_self]
  intro hself
  -- the check has seen to an id that was given
  rw [← Bool.not_eq_true]
  intro hid
  obtain ⟨hsame, hchecked⟩ := h.given hid
  exact hchecked (hsame ▸ hself)

namespace InstructionSet

/-- Sets that are put together by registering batches and single instructions and by uniting sets,
with the instructions as they were given. A call that is refused gives no new set. -/
inductive Composed : List Instruction → InstructionSet → Prop where
  | empty : Composed [] empty
  | batch {given batch : List Instruction} {s t : InstructionSet} {ids : List String}
      (hs : Composed given s) (hbatch : s.register batch = .ok (ids, t)) :
      Composed (given ++ batch) t
  | one {given : List Instruction} {i : Instruction} {s t : InstructionSet} {id : String}
      (hs : Composed given s) (hi : s.registerOne i = .ok (id, t)) : Composed (given ++ [i]) t
  | union {given given' : List Instruction} {s t u : InstructionSet} (hs : Composed given s)
      (ht : Composed given' t) (hu : s.union t = .ok u) : Composed (given ++ given') u

section

variable {s t : InstructionSet} {batch : List Instruction} {ids : List String}
  {taken : Std.TreeSet String}

lemma register_eq_ok (h : s.register batch = .ok (ids, t)) : ∃ noted, s.givenIds batch = .ok noted ∧
    ids = (s.nameAll noted batch).map Instruction.id ∧
    t.toList = s.toList ++ s.nameAll noted batch := by
  obtain ⟨noted, hnoted, h⟩ := bind_eq_ok.1 h
  obtain ⟨t', hadd, h⟩ := bind_eq_ok.1 h
  obtain ⟨rfl, rfl⟩ := Prod.mk.inj (Except.ok.inj h)
  rw [named_eq] at hadd ⊢
  exact ⟨noted, hnoted, rfl, toList_addAll hadd⟩

lemma of_givenIds {noted : Std.TreeSet String} (h : s.givenIds batch = .ok noted) :
    (∀ n, n ∈ noted ↔ n ∈ (batch.filter Instruction.hasId).map Instruction.id) ∧
      ∀ i ∈ batch, i.hasId = true → i.id ∉ i.dependsOn := by
  rw [givenIds_eq] at h
  obtain ⟨-, hchecked⟩ := exists_foldlM_checkId_iff.1 ⟨noted, h⟩
  refine ⟨fun n => ?_, fun i hi hid => (hchecked i (List.mem_filter.2 ⟨hi, hid⟩)).2⟩
  have hnone : n ∉ (∅ : Std.TreeSet String) := by simp
  rw [mem_of_foldlM_checkId h, or_iff_right hnone]

variable (s) in
lemma forall₂_nameAll (hchecked : ∀ i ∈ batch, i.hasId = true → i.id ∉ i.dependsOn) :
    List.Forall₂ Instruction.Becomes batch (s.nameAll taken batch) := by
  induction batch generalizing taken with
  | nil => exact .nil
  | cons i batch ih =>
    rw [List.forall_mem_cons] at hchecked
    rw [nameAll]
    cases hid : i.hasId with
    | true =>
      rw [if_pos rfl]
      exact .cons ⟨rfl, fun h => ⟨rfl, hchecked.1 h⟩, by simp [hid]⟩ (ih hchecked.2)
    | false =>
      rw [if_neg Bool.false_ne_true]
      exact .cons ⟨rfl, by simp [hid], fun _ => s.numbered_freshName taken _⟩ (ih hchecked.2)

variable (s) in
lemma firstFree_nameAll (hnoted : ∀ i ∈ batch, i.hasId = true → i.id ∈ taken) {k : ℕ}
    {i : Instruction} {id : String} (hi : batch[k]? = some i) (hid : i.hasId = false)
    (hname : ((s.nameAll taken batch).map Instruction.id)[k]? = some id) :
    Name.FirstFree (fun n => n ∈ s.ids ∨ n ∈ taken ∨
      n ∈ ((s.nameAll taken batch).map Instruction.id).take k) i.action.tag id := by
  induction batch generalizing taken k with
  | nil => cases hi
  | cons a batch ih =>
    rw [List.forall_mem_cons] at hnoted
    rw [nameAll] at hname ⊢
    cases k with
    | zero =>
      obtain rfl : a = i := Option.some.inj hi
      rw [hid] at hname
      obtain rfl : s.freshName taken a.action.tag = id := Option.some.inj hname
      simpa using s.firstFree_freshName taken a.action.tag
    | succ k =>
      cases ha : a.hasId with
      | true =>
        rw [ha, if_pos rfl, List.map_cons, List.getElem?_cons_succ] at hname
        refine (ih hnoted.2 hi hname).congr fun n => ?_
        -- the id in front has been noted
        have hsame : n = a.id → n ∈ taken := fun heq => heq ▸ hnoted.1 ha
        rw [if_pos rfl, List.map_cons, List.take_succ_cons, List.mem_cons]
        tauto
      | false =>
        rw [ha, if_neg Bool.false_ne_true, List.map_cons, List.getElem?_cons_succ] at hname
        have hnoted' : ∀ j ∈ batch, j.hasId = true →
            j.id ∈ taken.insert (s.freshName taken a.action.tag) :=
          fun j hj hjid => mem_insert_iff.2 (.inr (hnoted.2 j hj hjid))
        refine (ih hnoted' hi hname).congr fun n => ?_
        rw [if_neg Bool.false_ne_true, List.map_cons, List.take_succ_cons, List.mem_cons,
          mem_insert_iff]
        tauto

lemma forall₂_of_register (h : s.register batch = .ok (ids, t)) : ∃ l,
    t.toList = s.toList ++ l ∧ List.Forall₂ Instruction.Becomes batch l := by
  obtain ⟨noted, hnoted, -, ht⟩ := register_eq_ok h
  exact ⟨_, ht, forall₂_nameAll s (of_givenIds hnoted).2⟩

lemma register_of_registerOne {i : Instruction} {id : String} (h : s.registerOne i = .ok (id, t)) :
    ∃ ids, s.register [i] = .ok (ids, t) := by
  obtain ⟨⟨ids, t'⟩, hregister, h⟩ := bind_eq_ok.1 h
  obtain ⟨-, rfl⟩ := Prod.mk.inj (Except.ok.inj h)
  exact ⟨ids, hregister⟩

/-- **The instructions of a set** are those that were given for it, in order. -/
theorem Composed.forall₂ {given : List Instruction} (h : Composed given s) :
    List.Forall₂ Instruction.Becomes given s.toList := by
  induction h with
  | empty => exact .nil
  | batch _ hbatch ih =>
    obtain ⟨l, ht, hl⟩ := forall₂_of_register hbatch
    rw [ht]
    exact List.rel_append ih hl
  | one _ hi ih =>
    obtain ⟨ids, hregister⟩ := register_of_registerOne hi
    obtain ⟨l, ht, hl⟩ := forall₂_of_register hregister
    rw [ht]
    exact List.rel_append ih hl
  | union _ _ hu ihs iht =>
    rw [toList_addAll hu]
    exact List.rel_append ihs iht

/-- A made-up id is the first name of the tag that neither was in the set nor is given in the batch
nor was made up earlier in it. -/
lemma firstFree_of_register (h : s.register batch = .ok (ids, t)) {k : ℕ} {i : Instruction}
    {id : String} (hi : batch[k]? = some i) (hid : i.hasId = false) (hname : ids[k]? = some id) :
    Name.FirstFree (fun n => n ∈ s.ids ∨ n ∈ (batch.filter Instruction.hasId).map Instruction.id ∨
      n ∈ ids.take k) i.action.tag id := by
  obtain ⟨noted, hnoted, rfl, -⟩ := register_eq_ok h
  obtain ⟨hmem, -⟩ := of_givenIds hnoted
  have hgiven : ∀ j ∈ batch, j.hasId = true → j.id ∈ noted := fun j hj hjid =>
    (hmem j.id).2 (List.mem_map_of_mem (List.mem_filter.2 ⟨hj, hjid⟩))
  refine (firstFree_nameAll s hgiven hi hid hname).congr fun n => ?_
  rw [hmem]

end

/-- **What makes an instruction depend on itself.** Take any set that was put together by
registering batches and single instructions and by uniting sets.

Its instructions are those that were given, in order. One of them depends on itself exactly if it
was given without an id and depends on the id that was made up for it. So none does if every
instruction without an id stays clear of its tag, alone or with a number behind it. In the next
batch, the made-up id is the first name of the tag that neither is in the set nor is given in the
batch nor was made up earlier in it. -/
theorem depends_on_itself_iff_named_so {given : List Instruction} {s : InstructionSet}
    (h : Composed given s) :
    given.length = s.size ∧
    (∀ (k : ℕ) i j, given[k]? = some i → s.toList[k]? = some j →
      j = { i with id := j.id } ∧ (i.hasId = true → j.id = i.id) ∧
      (j.id ∈ j.dependsOn ↔ i.hasId = false ∧ j.id ∈ i.dependsOn)) ∧
    ((∀ i ∈ given, i.hasId = false → ∀ n ∈ i.dependsOn, ¬Name.Numbered i.action.tag n) →
      ∀ j ∈ s.toList, j.id ∉ j.dependsOn) ∧
    (∀ batch ids t, s.register batch = .ok (ids, t) → ∀ (k : ℕ) i id, batch[k]? = some i →
      ids[k]? = some id → i.hasId = false → Name.FirstFree (fun n => n ∈ s.ids ∨
        n ∈ (batch.filter Instruction.hasId).map Instruction.id ∨ n ∈ ids.take k)
          i.action.tag id) := by
  obtain ⟨hlength, hall⟩ := List.forall₂_iff_get.1 h.forall₂
  have hat : ∀ (k : ℕ) i j, given[k]? = some i → s.toList[k]? = some j → i.Becomes j := by
    intro k i j hi hj
    obtain ⟨hk, rfl⟩ := List.getElem?_eq_some_iff.1 hi
    obtain ⟨hk', rfl⟩ := List.getElem?_eq_some_iff.1 hj
    exact hall k hk hk'
  refine ⟨by rw [hlength, length_toList], fun k i j hi hj => ?_, fun hclear j hj hself => ?_,
    fun batch ids t hregister k i id hi hname hid => firstFree_of_register hregister hi hid hname⟩
  · have hbecomes := hat k i j hi hj
    exact ⟨hbecomes.eq, fun hid => (hbecomes.given hid).1, hbecomes.id_mem_dependsOn⟩
  · obtain ⟨k, hk, rfl⟩ := List.mem_iff_getElem.1 hj
    have hi : given[k]? = some given[k] := List.getElem?_eq_getElem (hlength ▸ hk)
    have hbecomes := hat k _ _ hi (List.getElem?_eq_getElem hk)
    obtain ⟨hid, hmem⟩ := hbecomes.id_mem_dependsOn.1 hself
    exact hclear _ (List.mem_of_getElem? hi) hid _ hmem (hbecomes.named hid)

def assignmentBehind (id : String) : Instruction := ⟨"", .ofList [id], .assign "x" (.var "<t>")⟩

theorem depends_on_itself_iff_named_so_behindNext : ∃ s t u,
    empty.register [assignmentBehind "assign0", ⟨"assign", ∅, .abort⟩] =
      .ok (["assign0", "assign"], s) ∧
    empty.registerOne ⟨"last", .ofList ["assign"], .abort⟩ = .ok ("last", t) ∧ s.union t = .ok u ∧
    ∀ (k : ℕ) i j, [assignmentBehind "assign0", ⟨"assign", ∅, .abort⟩,
        ⟨"last", .ofList ["assign"], .abort⟩][k]? = some i → u.toList[k]? = some j →
      j = { i with id := j.id } ∧ (i.hasId = true → j.id = i.id) ∧
      (j.id ∈ j.dependsOn ↔ i.hasId = false ∧ j.id ∈ i.dependsOn) := by
  have hrun : ((empty.register [assignmentBehind "assign0", ⟨"assign", ∅, .abort⟩]).toOption.bind
      fun r => (empty.registerOne ⟨"last", .ofList ["assign"], .abort⟩).toOption.bind
        fun r' => (r.2.union r'.2).toOption.map fun _ => (r.1, r'.1)) =
      some (["assign0", "assign"], "last") := by
    decide +kernel
  obtain ⟨⟨ids, s⟩, hs, hrun⟩ := Option.bind_eq_some_iff.1 hrun
  obtain ⟨⟨id, t⟩, ht, hrun⟩ := Option.bind_eq_some_iff.1 hrun
  obtain ⟨u, hu, hids⟩ := Option.map_eq_some_iff.1 hrun
  obtain ⟨rfl, rfl⟩ := Prod.mk.inj hids
  rw [toOption_eq_some] at hs ht hu
  have hcomposed := (Composed.empty.batch hs).union (Composed.empty.one ht) hu
  exact ⟨s, t, u, hs, ht, hu, (depends_on_itself_iff_named_so hcomposed).2.1⟩

/-- An assignment behind the name that is made up for it is registered and depends on itself. -/
theorem assignment_registered_behind_itself : ∃ s,
    empty.registerOne (assignmentBehind "assign") = .ok ("assign", s) ∧
    Composed [assignmentBehind "assign"] s ∧ ∃ i ∈ s.toList, i.id ∈ i.dependsOn := by
  have hrun : ((empty.registerOne (assignmentBehind "assign")).toOption.map fun r =>
      (r.1, r.2.toList.any fun i => i.id ∈ i.dependsOn)) = some ("assign", true) := by
    decide +kernel
  obtain ⟨⟨id, s⟩, hs, hrun⟩ := Option.map_eq_some_iff.1 hrun
  obtain ⟨rfl, hself⟩ := Prod.mk.inj hrun
  rw [toOption_eq_some] at hs
  refine ⟨s, hs, Composed.empty.one hs, ?_⟩
  simpa using hself

end InstructionSet

end TimeMarch
