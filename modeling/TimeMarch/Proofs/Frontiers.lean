import TimeMarch.Proofs.Sequences

/-!
# Where a Failed Statement Leaves a Sequence

A statement that is refused changes nothing, unless it is a branch. When an arm of a branch breaks
off, what was registered before stays, and the frontier stays where the broken arm has left it. The
label, the transition and the depth are always restored. What happened can be read off the report:
`added` lists what was registered, and `end?` says where the frontier was left.
-/

namespace TimeMarch

/-! ### Reading reports -/

namespace Report

mutual

def added : Report → List String
  | plain o _ => o.toOption.toList
  | branch o _ yes no => addedBy yes ++ addedBy no ++ o.toOption.toList

def addedBy : List Report → List String
  | [] => []
  | r :: rest => r.added ++ addedBy rest

end

mutual

/-- The id at which the frontier was left, if it was moved. A branch that failed has left it where
the arm did that was begun last. -/
def end? : Report → Option String
  | plain o _ => o.toOption
  | branch o _ yes no => o.toOption.or (if no.isEmpty then endOf? yes else endOf? no)

def endOf? : List Report → Option String
  | [] => none
  | r :: rest => (endOf? rest).or r.end?

end

end Report

namespace Sequence

/-! ### Performing -/

/-- A sequence has come from `q` to `q'`: the instructions were added under the given ids, and the
frontier was left at the given id or not moved. -/
structure Came (q : Sequence) (added : List String) (last? : Option String) (q' : Sequence) :
    Prop where
  label : q'.label = q.label
  depth : q'.depth = q.depth
  ids : q'.instructions.ids = q.instructions.ids ++ added
  kept : ∀ id i, q.instructions.get? id = some i → q'.instructions.get? id = some i
  same : added = [] → q'.instructions = q.instructions
  frontier : q'.frontier = last?.elim q.frontier ([·])
  last : ∀ id ∈ last?, id ∈ added

section

variable {q q' : Sequence} {added : List String} {last? : Option String}

lemma Came.refl (q : Sequence) : Came q [] none q :=
  ⟨rfl, rfl, by simp, fun _ _ h => h, fun _ => rfl, rfl, by simp⟩

lemma Came.trans {q'' : Sequence} {added' : List String} {last?' : Option String}
    (h : Came q added last? q') (h' : Came q' added' last?' q'') :
    Came q (added ++ added') (last?'.or last?) q'' where
  label := h'.label.trans h.label
  depth := h'.depth.trans h.depth
  ids := by rw [h'.ids, h.ids, List.append_assoc]
  kept id i hi := h'.kept id i (h.kept id i hi)
  same hnil := by
    obtain ⟨hnil, hnil'⟩ := List.append_eq_nil_iff.1 hnil
    rw [h'.same hnil', h.same hnil]
  frontier := by
    rw [h'.frontier, h.frontier]
    cases last?' <;> rfl
  last id hid := by
    rw [List.mem_append]
    cases last?' with
    | none => exact .inl (h.last id hid)
    | some id' => exact .inr (h'.last id hid)

lemma Came.rooted (h : Came q added last? q') (hq : q.Rooted) : q'.Rooted := by
  intro r hr
  rw [h.frontier] at hr
  rw [h.ids, List.mem_append]
  cases last? with
  | none => exact .inl (hq r hr)
  | some id =>
    obtain rfl := List.mem_singleton.1 hr
    exact .inr (h.last r rfl)

lemma Came.back (h : Came q added last? q') :
    Came q added none { q' with frontier := q.frontier } :=
  ⟨h.label, h.depth, h.ids, h.kept, h.same, rfl, by simp⟩

lemma Came.of_noted {next : Option String}
    (h : Came { q with transition := next } added last? q') : Came q added last? q' :=
  ⟨h.label, h.depth, h.ids, h.kept, h.same, h.frontier, h.last⟩

lemma Came.of_arm (h : Came { q with depth := q.depth + 1 } added last? q') :
    Came q added last? { q' with depth := q'.depth - 1 } :=
  ⟨h.label, by simp [h.depth], h.ids, h.kept, h.same, h.frontier, h.last⟩

end

lemma came_push {q : Sequence} {i : Instruction}
    (hnew : q.instructions.roster.place? i.id = none) :
    Came q [i.id] (some i.id) (q.push i hnew) where
  label := rfl
  depth := rfl
  ids := InstructionSet.ids_push hnew
  kept _ _ hi := InstructionSet.get?_push_of_get? hnew hi
  same h := by cases h
  frontier := rfl
  last := by simp

lemma came_add (q : Sequence) (i : Instruction) :
    Came q (q.add i).1.toOption.toList (q.add i).1.toOption (q.add i).2 ∧
      (q.add i).2.transition = q.transition := by
  obtain ⟨-, e, he⟩ | ⟨hnew, hok⟩ := q.add_cases i
  · rw [he]
    exact ⟨.refl q, rfl⟩
  · rw [hok]
    exact ⟨came_push hnew, rfl⟩

section

variable {q q₁ q₂ : Sequence} {c : Expr} {yes no : List Statement}
  {yesReports noReports : List Report} {e : BuildError}

lemma perform_branch_of_yes_failed
    (hyes : performArm { q with depth := q.depth + 1 } yes = (yesReports, some e, q₁)) :
    perform q (.branch c yes no) =
      (.branch (.error e) q₁.frontier yesReports [], { q₁ with depth := q₁.depth - 1 }) := by
  rw [perform, hyes]

lemma perform_branch_of_no_failed
    (hyes : performArm { q with depth := q.depth + 1 } yes = (yesReports, none, q₁))
    (hno : performArm { q₁ with frontier := q.frontier } no = (noReports, some e, q₂)) :
    perform q (.branch c yes no) =
      (.branch (.error e) q₂.frontier yesReports noReports, { q₂ with depth := q₂.depth - 1 }) := by
  rw [perform, hyes]
  simp only [hno]

lemma perform_branch_of_built {q₃ : Sequence} {outcome : Except BuildError String}
    (hyes : performArm { q with depth := q.depth + 1 } yes = (yesReports, none, q₁))
    (hno : performArm { q₁ with frontier := q.frontier } no = (noReports, none, q₂))
    (hadd : { q₂ with frontier := q.frontier, depth := q₂.depth - 1 }.add
      { action := .branch c (NameSet.ofList (armIds q.frontier q₁.frontier))
          (NameSet.ofList (armIds q.frontier q₂.frontier)) } = (outcome, q₃)) :
    perform q (.branch c yes no) =
      (.branch outcome q₃.frontier yesReports noReports, q₃) := by
  rw [perform, hyes]
  simp only [hno, hadd]

lemma performArm_cons_cases (q : Sequence) (st : Statement) (rest : List Statement) :
    (∃ e, (perform q st).1.outcome = .error e ∧
      performArm q (st :: rest) = ([(perform q st).1], some e, (perform q st).2)) ∨
    performArm q (st :: rest) = ((perform q st).1 :: (performArm (perform q st).2 rest).1,
      (performArm (perform q st).2 rest).2) := by
  cases st with
  | attempt st =>
    right
    rw [performArm, perform]
  | _ =>
    cases ho : (perform q _).1.outcome with
    | error e =>
      left
      exact ⟨e, rfl, by simp only [performArm, ho]⟩
    | ok id =>
      right
      simp only [performArm, ho]

end

mutual

/-- **What a statement does**, refused or not, can be read off its report. The transition is noted
anew only by a statement that is not refused, and not inside an arm. -/
theorem came_perform {q : Sequence} (hq : q.Rooted) (st : Statement) :
    Came q (perform q st).1.added (perform q st).1.end? (perform q st).2 ∧
      (q.depth ≠ 0 ∨ (∃ e, (perform q st).1.outcome = .error e) →
        (perform q st).2.transition = q.transition) := by
  cases st with
  | instruction i =>
    rw [perform]
    obtain ⟨hcame, htransition⟩ := q.came_add i
    exact ⟨hcame, fun _ => htransition⟩
  | transition next =>
    rw [perform]
    by_cases hdepth : q.depth = 0
    · -- the transition is noted; what is left to the sequence is not refused
      obtain ⟨hnew, hadd⟩ := Rooted.exists_add (q := { q with transition := some next }) hq
        (.transition next)
      simp only [if_pos hdepth, hadd]
      refine ⟨(came_push hnew).of_noted, ?_⟩
      rintro (h | ⟨e, he⟩)
      · exact absurd hdepth h
      · cases he
    · obtain ⟨hcame, htransition⟩ := q.came_add { action := .transition next }
      simp only [if_neg hdepth]
      exact ⟨hcame, fun _ => htransition⟩
  | attempt st =>
    rw [perform]
    exact came_perform hq st
  | branch c yes no =>
    have hyesCame := came_performArm (q := { q with depth := q.depth + 1 }) hq yes
    rcases hyes : performArm { q with depth := q.depth + 1 } yes with ⟨yesReports, _ | e, q₁⟩
    · rw [hyes] at hyesCame
      obtain ⟨hcame₁, htransition₁, -⟩ := hyesCame
      have htransition₁ := htransition₁ (Nat.succ_ne_zero _)
      have hdepth₁ : q₁.depth = q.depth + 1 := hcame₁.depth
      have hroot₁ : Rooted { q₁ with frontier := q.frontier } := hcame₁.back.rooted hq
      have hnoCame := came_performArm hroot₁ no
      rcases hno : performArm { q₁ with frontier := q.frontier } no with ⟨noReports, _ | e, q₂⟩
      · rw [hno] at hnoCame
        obtain ⟨hcame₂, htransition₂, -⟩ := hnoCame
        have htransition₂ := htransition₂ (by simp [hdepth₁])
        have hcame := (hcame₁.back.trans hcame₂).of_arm.back
        obtain ⟨hnew, hadd⟩ := (hcame.rooted hq).exists_add (.branch c
          (NameSet.ofList (armIds q.frontier q₁.frontier))
          (NameSet.ofList (armIds q.frontier q₂.frontier)))
        rw [perform_branch_of_built hyes hno hadd]
        exact ⟨hcame.trans (came_push hnew), fun _ => htransition₂.trans htransition₁⟩
      · rw [hno] at hnoCame
        obtain ⟨hcame₂, htransition₂, hbegun⟩ := hnoCame
        have htransition₂ := htransition₂ (by simp [hdepth₁])
        have hbegun : noReports.isEmpty = false := by simpa using hbegun (by simp)
        rw [perform_branch_of_no_failed hyes hno]
        refine ⟨?_, fun _ => htransition₂.trans htransition₁⟩
        simpa [Report.added, Report.end?, Except.toOption, hbegun] using
          (hcame₁.back.trans hcame₂).of_arm
    · rw [hyes] at hyesCame
      obtain ⟨hcame₁, htransition₁, -⟩ := hyesCame
      rw [perform_branch_of_yes_failed hyes]
      refine ⟨?_, fun _ => htransition₁ (Nat.succ_ne_zero _)⟩
      simpa [Report.added, Report.end?, Report.addedBy, Except.toOption] using hcame₁.of_arm

theorem came_performArm {q : Sequence} (hq : q.Rooted) (sts : List Statement) :
    Came q (Report.addedBy (performArm q sts).1) (Report.endOf? (performArm q sts).1)
        (performArm q sts).2.2 ∧
      (q.depth ≠ 0 → (performArm q sts).2.2.transition = q.transition) ∧
      ((performArm q sts).2.1 ≠ none → (performArm q sts).1 ≠ []) := by
  cases sts with
  | nil =>
    rw [performArm]
    exact ⟨.refl q, fun _ => rfl, fun h => absurd rfl h⟩
  | cons st rest =>
    obtain ⟨hcame, htransition⟩ := came_perform hq st
    obtain ⟨e, he, hcons⟩ | hcons := performArm_cons_cases q st rest
    · rw [hcons]
      refine ⟨?_, fun hdepth => htransition (.inl hdepth), by simp⟩
      simpa [Report.addedBy, Report.endOf?] using hcame
    · rw [hcons]
      obtain ⟨hcame', htransition', -⟩ := came_performArm (hcame.rooted hq) rest
      refine ⟨hcame.trans hcame', fun hdepth => ?_, by simp⟩
      rw [htransition' (hcame.depth ▸ hdepth), htransition (.inl hdepth)]

end

/-! ### Failing -/

/-- Sequences that operations lead to, refused or not: a new one, one behind a statement, and one at
the beginning of either arm of a branch. -/
inductive Reached : Sequence → Prop where
  | new (label : String) : Reached { label }
  | perform {q : Sequence} (hq : Reached q) (st : Statement) : Reached (q.perform st).2
  | yes {q : Sequence} (hq : Reached q) : Reached { q with depth := q.depth + 1 }
  | no {q q₁ : Sequence} {yes : List Statement} {reports : List Report} (hq : Reached q)
      (hyes : performArm { q with depth := q.depth + 1 } yes = (reports, none, q₁)) :
      Reached { q₁ with frontier := q.frontier }

lemma Reached.rooted {q : Sequence} (h : q.Reached) : q.Rooted := by
  induction h with
  | new label => simp [Rooted]
  | perform _ st ih => exact (came_perform ih st).1.rooted ih
  | yes _ ih => exact ih
  | @no q q₁ yes reports _ hyes ih =>
    have hcame := (came_performArm (q := { q with depth := q.depth + 1 }) ih yes).1
    rw [hyes] at hcame
    exact hcame.back.rooted ih

section

variable {q q' : Sequence} {added : List String} {last? : Option String}

lemma Came.frontier_eq_iff (h : Came q added last? q') (hq : q.Rooted) :
    q'.frontier = q.frontier ↔ last? = none := by
  cases last? with
  | none => simp [h.frontier]
  | some id =>
    simp only [reduceCtorEq, iff_false]
    intro heq
    have hold : id ∈ q.instructions.ids := hq id (by rw [← heq, h.frontier]; simp)
    have hnodup : (q.instructions.ids ++ added).Nodup := h.ids ▸ Roster.nodup_keys _
    exact List.disjoint_of_nodup_append hnodup hold (h.last id rfl)

lemma Came.eq_of_added_eq_nil (h : Came q added last? q')
    (htransition : q'.transition = q.transition) (hnil : added = []) : q' = q := by
  have hlast : last? = none := by
    rw [Option.eq_none_iff_forall_not_mem]
    intro id hid
    simpa [hnil] using h.last id hid
  have hfrontier : q'.frontier = q.frontier := by rw [h.frontier, hlast]; rfl
  have hlabel := h.label
  have hdepth := h.depth
  have hinstructions := h.same hnil
  cases q
  cases q'
  simp only [Sequence.mk.injEq]
  exact ⟨hlabel, hinstructions, hfrontier, htransition, hdepth⟩

lemma exists_get?_of_add {i : Instruction} {id : String} (h : q.add i = (.ok id, q')) :
    ∃ j, q'.instructions.get? id = some j ∧ j.action = i.action ∧
      ∀ r, r ∈ j.dependsOn ↔ r ∈ i.dependsOn ∨ r ∈ q.frontier := by
  obtain ⟨-, e, he⟩ | ⟨hnew, hok⟩ := q.add_cases i
  · rw [he] at h
    cases h
  · rw [hok] at h
    cases h
    refine ⟨q.placed i, ?_, rfl, fun r => ?_⟩
    · rw [push, InstructionSet.get?_push, if_pos rfl]
    · simp [placed]

end

/-- **What a failed statement leaves behind.** Take any sequence that operations lead to, and any
statement that fails on it.

The label, the transition and the depth are kept. What was registered is kept, and behind it stand
the instructions that the report lists; if it lists none the sequence is the same as before. The
frontier is left at the end that the report tells, and is not moved exactly if the report tells
none. Whatever is added next depends on this frontier. -/
theorem failed_statement_keeps_all_but_frontier {q : Sequence} (hq : q.Reached) (st : Statement)
    {e : BuildError} (hfail : (q.perform st).1.outcome = .error e) :
    let report := (q.perform st).1
    let q' := (q.perform st).2
    q'.label = q.label ∧ q'.transition = q.transition ∧ q'.depth = q.depth ∧
    q'.instructions.ids = q.instructions.ids ++ report.added ∧
    (∀ id i, q.instructions.get? id = some i → q'.instructions.get? id = some i) ∧
    (report.added = [] → q' = q) ∧
    q'.frontier = report.end?.elim q.frontier ([·]) ∧
    (q'.frontier = q.frontier ↔ report.end? = none) ∧
    (∀ i id q'', q'.add i = (.ok id, q'') → ∃ j, q''.instructions.get? id = some j ∧
      j.action = i.action ∧ ∀ r, r ∈ j.dependsOn ↔ r ∈ i.dependsOn ∨ r ∈ q'.frontier) := by
  intro report q'
  obtain ⟨hcame, htransition⟩ := came_perform hq.rooted st
  have htransition := htransition (.inr ⟨e, hfail⟩)
  exact ⟨hcame.label, htransition, hcame.depth, hcame.ids, hcame.kept,
    hcame.eq_of_added_eq_nil htransition, hcame.frontier, hcame.frontier_eq_iff hq.rooted,
    fun i id q'' hadd => exists_get?_of_add hadd⟩

/-- A branch of which the first arm breaks off behind an assignment, at an id that is taken. -/
def brokenBranch : Statement :=
  .branch (.var "<p>c")
    [.assign "<p>x" (.literal (.scalar 1)), .instruction { id := "s_assign", action := .abort }] []

/-- In an arm behind a transition, a branch fails because one in its second arm does. -/
theorem failed_statement_keeps_all_but_frontier_nested :
    let q := { (({ label := "s" } : Sequence).perform (.transition "next")).2 with depth := 1 }
    let st := Statement.branch (.var "<p>d") [.fail] [brokenBranch]
    (q.perform st).1.outcome = .error (.duplicateId "s_assign") ∧
    (q.perform st).2.transition = some "next" ∧ (q.perform st).2.depth = 1 ∧
    (q.perform st).1.added = ["s_abort", "s_assign"] ∧
    q.frontier = ["s_transition"] ∧ (q.perform st).2.frontier = ["s_assign"] := by
  intro q st
  have hreached : q.Reached := ((Reached.new "s").perform (.transition "next")).yes
  have hfail : (q.perform st).1.outcome = .error (.duplicateId "s_assign") := by decide +kernel
  have hadded : (q.perform st).1.added = ["s_abort", "s_assign"] := by decide +kernel
  have hend : (q.perform st).1.end? = some "s_assign" := by decide +kernel
  have hfrontier : q.frontier = ["s_transition"] := by decide +kernel
  obtain ⟨-, htransition, hdepth, -, -, -, hmoved, -⟩ :=
    failed_statement_keeps_all_but_frontier hreached st hfail
  refine ⟨hfail, htransition.trans ?_, hdepth, hadded, hfrontier, ?_⟩
  · decide +kernel
  · rw [hmoved, hend]
    rfl

/-- The frontier of a new sequence is empty, and behind the branch that failed it is not. So an
instruction that is added next depends on one of the broken arm. -/
theorem broken_arm_moves_frontier :
    let q : Sequence := { label := "s" }
    let q' := (q.perform brokenBranch).2
    (q.perform brokenBranch).1.outcome = .error (.duplicateId "s_assign") ∧
    q.frontier = [] ∧ q'.frontier = ["s_assign"] ∧
    (((q.perform .fail).2.instructions.get? "s_abort").map fun i => i.dependsOn.toList) =
      some [] ∧
    (((q'.perform .fail).2.instructions.get? "s_abort").map fun i => i.dependsOn.toList) =
      some ["s_assign"] := by
  decide +kernel

end Sequence

end TimeMarch
