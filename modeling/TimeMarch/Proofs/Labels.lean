import TimeMarch.Proofs.Frontiers

/-!
# Sequences of Different Labels

A sequence makes up its ids from its label, an underscore, the tag of the action and perhaps a
number. Neither tags nor numbers have an underscore, so the label is what stands before the last
one, also when labels have underscores or digits or begin like each other. Sequences of different
labels therefore have no made-up id in common, and their instructions can be united in any order.
-/

namespace TimeMarch

/-! ### Reading the label off an id -/

namespace Name

def beforeLast (cs : List Char) : List Char := (cs.reverse.dropWhile (· != '_')).tail.reverse

def labelOf (id : String) : String := String.ofList (beforeLast id.toList)

lemma beforeLast_append {cs ds : List Char} (h : '_' ∉ ds) : beforeLast (cs ++ '_' :: ds) = cs := by
  have hreverse : (cs ++ '_' :: ds).reverse = ds.reverse ++ '_' :: cs.reverse := by simp
  have hskip : ∀ c ∈ ds.reverse, (c != '_') = true := by
    intro c hc
    rw [bne_iff_ne]
    rintro rfl
    exact h (List.mem_reverse.1 hc)
  rw [beforeLast, hreverse, List.dropWhile_append_of_pos hskip]
  simp

lemma underscore_notMem_toString (k : ℕ) : '_' ∉ (toString k).toList := by
  intro hmem
  rw [Nat.toString_eq_repr, Nat.toList_repr] at hmem
  have hdigit : '_'.isDigit = true := Nat.isDigit_of_mem_toDigits (by omega) (by omega) hmem
  exact absurd hdigit (by decide)

/-- **The label can be read off** a made-up id. -/
lemma labelOf_numbered {label tag id : String} (htag : '_' ∉ tag.toList)
    (h : Numbered (label ++ "_" ++ tag) id) : labelOf id = label := by
  have hread : ∀ ds : List Char, '_' ∉ ds →
      id.toList = label.toList ++ '_' :: ds → labelOf id = label := by
    intro ds hds heq
    rw [labelOf, heq, beforeLast_append hds, String.ofList_toList]
  rcases h with rfl | ⟨k, rfl⟩
  · exact hread tag.toList htag (by simp)
  · refine hread (tag.toList ++ (toString k).toList) ?_ (by simp)
    rw [List.mem_append]
    exact fun hmem => hmem.elim htag (underscore_notMem_toString k)

end Name

lemma Action.underscore_notMem_tag (a : Action) : '_' ∉ a.tag.toList := by
  cases a <;> simp [Action.tag]

/-! ### Uniting sets -/

namespace InstructionSet

def unionAll (sets : List InstructionSet) : Except BuildError InstructionSet :=
  sets.foldlM union empty

lemma exists_union {s t : InstructionSet} (h : s.ids.Disjoint t.ids) :
    ∃ u, s.union t = .ok u ∧ u.toList = s.toList ++ t.toList := by
  have hnodup : (t.toList.map Instruction.id).Nodup := by
    rw [map_id_toList]
    exact Roster.nodup_keys _
  obtain ⟨u, hu, -⟩ := exists_addAll (s := s) hnodup fun i hi hmem =>
    h hmem (map_id_toList t ▸ List.mem_map_of_mem hi)
  exact ⟨u, hu, toList_addAll hu⟩

lemma exists_foldlM_union {l : List InstructionSet} {s : InstructionSet}
    (hl : l.Pairwise fun t t' => t.ids.Disjoint t'.ids) (hs : ∀ t ∈ l, s.ids.Disjoint t.ids) :
    ∃ u, l.foldlM union s = .ok u ∧ u.toList = s.toList ++ l.flatMap toList := by
  induction l generalizing s with
  | nil => exact ⟨s, rfl, by simp⟩
  | cons t l ih =>
    rw [List.pairwise_cons] at hl
    rw [List.forall_mem_cons] at hs
    obtain ⟨v, hv, hlist⟩ := exists_union hs.1
    have hids : v.ids = s.ids ++ t.ids := by
      rw [← map_id_toList, hlist, List.map_append, map_id_toList, map_id_toList]
    obtain ⟨u, hu, hall⟩ := ih (s := v) hl.2 fun t' ht' => by
      rw [hids, List.disjoint_append_left]
      exact ⟨hs.2 t' ht', hl.1 t' ht'⟩
    refine ⟨u, bind_eq_ok.2 ⟨v, hv, hu⟩, ?_⟩
    rw [hall, hlist, List.flatMap_cons, List.append_assoc]

end InstructionSet

/-! ### What performing keeps -/

inductive Statement.Each (P : Instruction → Prop) : Statement → Prop where
  | instruction {i : Instruction} (h : P i) : Each P (.instruction i)
  | transition (next : String) : Each P (.transition next)
  | branch {c : Expr} {yes no : List Statement} (hyes : ∀ st ∈ yes, Each P st)
      (hno : ∀ st ∈ no, Each P st) : Each P (.branch c yes no)
  | attempt {st : Statement} (h : Each P st) : Each P (.attempt st)

def Statement.Anonymous (st : Statement) : Prop := st.Each fun i => i.hasId = false

namespace Sequence

section

variable {P : Sequence → Prop}

lemma performArm_keeps {sts : List Statement}
    (h : ∀ st ∈ sts, ∀ q, P q → P (perform q st).2) {q : Sequence} (hq : P q) :
    P (performArm q sts).2.2 := by
  induction sts generalizing q with
  | nil => rwa [performArm]
  | cons st rest ih =>
    rw [List.forall_mem_cons] at h
    have hst := h.1 q hq
    obtain ⟨e, -, hcons⟩ | hcons := performArm_cons_cases q st rest
    · rwa [hcons]
    · rw [hcons]
      exact ih h.2 hst

/-- **What adding keeps, performing keeps**, if frontier, transition and depth do not matter. -/
theorem perform_keeps {allowed : Instruction → Prop}
    (hadd : ∀ q i, allowed i → P q → P (q.add i).2) (hmade : ∀ a, allowed { action := a })
    (hrest : ∀ q q' : Sequence, q.label = q'.label → q.instructions = q'.instructions → P q → P q')
    {st : Statement} (hst : st.Each allowed) {q : Sequence} (hq : P q) : P (perform q st).2 := by
  induction hst generalizing q with
  | instruction h =>
    rw [perform]
    exact hadd _ _ h hq
  | transition next =>
    rw [perform]
    refine hadd _ _ (hmade _) ?_
    split
    · exact hrest q _ rfl rfl hq
    · exact hq
  | attempt _ ih =>
    rw [perform]
    exact ih hq
  | @branch c yes no _ _ ihyes ihno =>
    have hq₁ := performArm_keeps (fun st hst q hq => ihyes st hst hq)
      (hrest q { q with depth := q.depth + 1 } rfl rfl hq)
    rcases hyes : performArm { q with depth := q.depth + 1 } yes with ⟨yesReports, _ | e, q₁⟩
    · rw [hyes] at hq₁
      have hq₂ := performArm_keeps (fun st hst q hq => ihno st hst hq)
        (hrest q₁ { q₁ with frontier := q.frontier } rfl rfl hq₁)
      rcases hno : performArm { q₁ with frontier := q.frontier } no with ⟨noReports, _ | e, q₂⟩
      · rw [hno] at hq₂
        rw [perform_branch_of_built hyes hno rfl]
        exact hadd _ _ (hmade _) (hrest q₂ _ rfl rfl hq₂)
      · rw [hno] at hq₂
        rw [perform_branch_of_no_failed hyes hno]
        exact hrest q₂ _ rfl rfl hq₂
    · rw [hyes] at hq₁
      rw [perform_branch_of_yes_failed hyes]
      exact hrest q₁ _ rfl rfl hq₁

end

/-! ### Sequences under labels -/

structure Marked (label : String) (q : Sequence) : Prop where
  label_eq : q.label = label
  labelOf_eq : ∀ id ∈ q.instructions.ids, Name.labelOf id = label

lemma Marked.add {label : String} {q : Sequence} (h : Marked label q) {i : Instruction}
    (hid : i.hasId = false) : Marked label (q.add i).2 := by
  obtain ⟨-, e, he⟩ | ⟨hnew, hok⟩ := q.add_cases i
  · rwa [he]
  · rw [hok]
    refine ⟨h.label_eq, fun id hmem => ?_⟩
    rw [push, InstructionSet.ids_push, List.mem_append, List.mem_singleton] at hmem
    rcases hmem with hmem | rfl
    · exact h.labelOf_eq id hmem
    · have hmade : (q.placed i).id = q.nextId i.action.tag := by simp [placed, hid]
      rw [hmade, ← h.label_eq]
      exact Name.labelOf_numbered i.action.underscore_notMem_tag (q.numbered_nextId _)

lemma Marked.performArm {label : String} {q : Sequence} (h : Marked label q)
    {sts : List Statement} (hsts : ∀ st ∈ sts, st.Anonymous) :
    Marked label (q.performArm sts).2.2 := by
  refine performArm_keeps (fun st hst q hq => ?_) h
  refine perform_keeps (fun _ _ hi hq => hq.add hi) (fun _ => rfl) ?_ (hsts st hst) hq
  intro q q' hlabel hinstructions hq
  exact ⟨hlabel ▸ hq.label_eq, hinstructions ▸ hq.labelOf_eq⟩

/-- A sequence is made by statements under a label: all of them are performed, or each one whatever
became of those before it. -/
inductive Made (label : String) (sts : List Statement) : Sequence → Prop where
  | built {q : Sequence} (h : (build label sts).2 = .ok q) : Made label sts q
  | each : Made label sts (performEach { label } sts).2

lemma performArm_of_build {label : String} {sts : List Statement} {q : Sequence}
    (h : (build label sts).2 = .ok q) : (performArm { label } sts).2.2 = q := by
  unfold build at h
  rcases hperform : performArm { label } sts with ⟨reports, _ | e, q'⟩
  · rw [hperform] at h
    exact Except.ok.inj h
  · rw [hperform] at h
    cases h

lemma Made.marked {label : String} {sts : List Statement} {q : Sequence} (h : Made label sts q)
    (hsts : ∀ st ∈ sts, st.Anonymous) : Marked label q := by
  have hnew : Marked label { label } := ⟨rfl, fun id hid => by cases hid⟩
  cases h with
  | built h => exact performArm_of_build h ▸ hnew.performArm hsts
  | each =>
    refine hnew.performArm fun st hst => ?_
    obtain ⟨st', hst', rfl⟩ := List.mem_map.1 hst
    exact .attempt (hsts st' hst')

lemma Marked.disjoint {label label' : String} {q q' : Sequence} (h : Marked label q)
    (h' : Marked label' q') (hne : label ≠ label') :
    q.instructions.ids.Disjoint q'.instructions.ids := by
  intro id hid hid'
  exact hne ((h.labelOf_eq id hid).symm.trans (h'.labelOf_eq id hid'))

/-- **Sequences of different labels can be composed.** Take any sequences, each made under its label
by statements that leave all ids to it, and let no two have the same label. No two of them have an
id in common, two of them can be united in either order, and all of them can be united one after
the other. -/
theorem sequences_of_distinct_labels_unite {qs : List Sequence}
    (hmade : ∀ q ∈ qs, ∃ sts, (∀ st ∈ sts, st.Anonymous) ∧ Made q.label sts q)
    (hlabels : qs.Pairwise fun q q' => q.label ≠ q'.label) :
    (qs.Pairwise fun q q' => q.instructions.ids.Disjoint q'.instructions.ids ∧
      (∃ u, q.instructions.union q'.instructions = .ok u ∧
        u.toList = q.instructions.toList ++ q'.instructions.toList) ∧
      (∃ u, q'.instructions.union q.instructions = .ok u ∧
        u.toList = q'.instructions.toList ++ q.instructions.toList)) ∧
    ∃ u, InstructionSet.unionAll (qs.map Sequence.instructions) = .ok u ∧
      u.toList = qs.flatMap fun q => q.instructions.toList := by
  have hmarked : ∀ q ∈ qs, Marked q.label q := by
    intro q hq
    obtain ⟨sts, hsts, hq⟩ := hmade q hq
    exact hq.marked hsts
  have hdisjoint : qs.Pairwise fun q q' => q.instructions.ids.Disjoint q'.instructions.ids :=
    hlabels.imp_of_mem fun hq hq' hne => (hmarked _ hq).disjoint (hmarked _ hq') hne
  refine ⟨hdisjoint.imp fun h => ⟨h, InstructionSet.exists_union h,
    InstructionSet.exists_union (List.disjoint_symm h)⟩, ?_⟩
  obtain ⟨u, hu, hlist⟩ := InstructionSet.exists_foldlM_union (s := .empty)
    (List.pairwise_map.2 hdisjoint) fun t _ id hid => by cases hid
  refine ⟨u, hu, ?_⟩
  rw [hlist, List.flatMap_map]
  rfl

/-- A label may be an id of another sequence. -/
theorem sequences_of_distinct_labels_unite_nested :
    let x := Statement.assign "x" (.var "<t>")
    let q := (performEach { label := "s" } [x, x, .branch (.var "<p>c") [x] []]).2
    let q' := (performEach { label := "s_assign" } [x, .attempt x, .fail]).2
    q.instructions.ids = ["s_assign", "s_assign0", "s_assign1", "s_branch"] ∧
    q'.instructions.ids = ["s_assign_assign", "s_assign_assign0", "s_assign_abort"] ∧
    ∃ u, InstructionSet.unionAll [q.instructions, q'.instructions] = .ok u ∧
      u.toList = q.instructions.toList ++ q'.instructions.toList := by
  intro x q q'
  have hx : x.Anonymous := .instruction rfl
  have hmade : ∀ q₀ ∈ [q, q'], ∃ sts, (∀ st ∈ sts, st.Anonymous) ∧ Made q₀.label sts q₀ := by
    have hlabel : q.label = "s" := by decide +kernel
    have hlabel' : q'.label = "s_assign" := by decide +kernel
    rw [List.forall_mem_cons, List.forall_mem_singleton, hlabel, hlabel']
    refine ⟨⟨_, ?_, .each⟩, ⟨_, ?_, .each⟩⟩
    · simp only [List.forall_mem_cons]
      exact ⟨hx, hx, .branch (List.forall_mem_singleton.2 hx) (by simp), by simp⟩
    · simp only [List.forall_mem_cons]
      exact ⟨hx, .attempt hx, .instruction rfl, by simp⟩
  have hlabels : [q, q'].Pairwise fun q q' => q.label ≠ q'.label := by decide +kernel
  obtain ⟨-, u, hu, hlist⟩ := sequences_of_distinct_labels_unite hmade hlabels
  refine ⟨by decide +kernel, by decide +kernel, u, hu, ?_⟩
  simpa using hlist

end Sequence

end TimeMarch
