import TimeMarch.Proofs.Batches
import TimeMarch.Proofs.Units
import TimeMarch.Sequence

/-!
# What a Sequence Builds

A statement that leaves ids and dependencies to the sequence is never refused. Its instruction
depends on the frontier it finds, and the arms of a branch start where the branch does. `Laid` says
this of the instructions behind the steps of a schedule, and `Mirrored` that the steps are those of
the statements; both hold of what has been built, and go on to hold when more is built.
-/

namespace TimeMarch

/-! ### Registering under a new id -/

namespace InstructionSet

variable {s : InstructionSet} {i : Instruction}

lemma get?_push_of_get? (h : s.roster.place? i.id = none) {id : String} {i' : Instruction}
    (hi' : s.get? id = some i') : (s.push i h).get? id = some i' := by
  rw [get?_push, if_neg, hi']
  rintro rfl
  exact (Roster.place?_eq_none_iff _ _).1 h (Graph.mem_ids_of_get? hi')

lemma registerOne_eq (hid : i.hasId = true) (hnew : s.roster.place? i.id = none)
    (hself : i.id ∉ i.dependsOn) : s.registerOne i = .ok (i.id, s.push i hnew) := by
  have hcontains : s.contains i.id = false := by
    rw [contains, Roster.contains, hnew]
    rfl
  have hgiven : s.givenIds [i] = .ok ((∅ : Std.TreeSet String).insert i.id) := by
    simp [givenIds, hid, hcontains, hself, bind, Except.bind, pure, Except.pure]
  have hnamed : ∀ given, (s.named given [i]).toList = [i] := by
    simp [named, hid]
  have hadd : s.addAll [i] = .ok (s.push i hnew) := by
    simp [addAll, add, hnew]
  rw [registerOne, register, hgiven]
  simp only [bind, Except.bind, hnamed, hadd, pure, Except.pure, List.map_cons, List.headD_cons]

lemma registerOne_eq_error (hid : i.hasId = true) {e : BuildError}
    (h : s.checkId ∅ i = .error e) : s.registerOne i = .error e := by
  have hgiven : s.givenIds [i] = .error e := by
    rw [givenIds_eq, List.filter_cons_of_pos hid, List.filter_nil, List.foldlM_cons, h]
    rfl
  rw [registerOne, (submit_of_givenIds_eq_error hgiven).1]
  rfl

lemma registerOne_cases (hid : i.hasId = true) :
    (i.id ∈ s.ids ∨ i.id ∈ i.dependsOn) ∧ (∃ e, s.registerOne i = .error e) ∨
      ∃ hnew, s.registerOne i = .ok (i.id, s.push i hnew) := by
  by_cases htaken : i.id ∈ s.ids ∨ i.id ∈ (∅ : Std.TreeSet String)
  · have hmem : i.id ∈ s.ids := htaken.resolve_right (by simp)
    exact .inl ⟨.inl hmem, _, registerOne_eq_error hid (checkId_of_taken htaken)⟩
  · by_cases hself : i.id ∈ i.dependsOn
    · exact .inl ⟨.inr hself, _, registerOne_eq_error hid (checkId_of_self htaken hself)⟩
    · have hnew := (Roster.place?_eq_none_iff _ _).2 fun hmem => htaken (.inl hmem)
      exact .inr ⟨hnew, registerOne_eq hid hnew hself⟩

def Backward (s : InstructionSet) : Prop :=
  ∀ id i, s.get? id = some i → ∀ r ∈ i.references,
    ∃ j k, s.rank? r = some j ∧ s.rank? id = some k ∧ j < k

lemma Backward.push (h : s.Backward) (hnew : s.roster.place? i.id = none)
    (hrefs : ∀ r ∈ i.references, r ∈ s.ids) : (s.push i hnew).Backward := by
  have hrank : ∀ id, (s.push i hnew).rank? id = if i.id = id then some s.size else s.rank? id :=
    Roster.place?_push s.roster i.id i hnew
  -- what had a rank before is not the new instruction
  have hold : ∀ id j, s.rank? id = some j → (s.push i hnew).rank? id = some j := by
    intro id j hj
    rw [hrank, if_neg, hj]
    rintro rfl
    exact absurd (hnew.symm.trans hj) (by simp)
  intro id i' hi' r hr
  rw [get?_push] at hi'
  split at hi'
  · rename_i heq
    obtain rfl := Option.some.inj hi'
    subst heq
    obtain ⟨j, hj⟩ := Option.isSome_iff_exists.1 ((s.contains_iff r).2 (hrefs r hr))
    exact ⟨j, s.size, hold r j hj, by rw [hrank, if_pos rfl], Roster.place?_lt hj⟩
  · obtain ⟨j, k, hj, hk, hlt⟩ := h id i' hi' r hr
    exact ⟨j, k, hold r j hj, hold id k hk, hlt⟩

end InstructionSet

/-! ### Statements and steps -/

/-- A statement that leaves ids and dependencies to the sequence: an instruction that is no branch,
a transition, or a branch with such statements in its arms. -/
inductive Statement.Plain : Statement → Prop where
  | instruction {a : Action} (h : ∀ c yes no, a ≠ .branch c yes no) :
      Plain (.instruction { action := a })
  | transition (next : String) : Plain (.transition next)
  | branch {c : Expr} {yes no : List Statement} (hyes : ∀ st ∈ yes, Plain st)
      (hno : ∀ st ∈ no, Plain st) : Plain (.branch c yes no)

def Statement.action? : Statement → Option Action
  | .instruction i => some i.action
  | .transition next => some (.transition next)
  | .branch _ _ _ | .attempt _ => none

namespace Sequence

/-- The steps are those of the statements, one for each and in their order, also within the arms of
branches. A step has the id that was reported of its statement. -/
inductive Mirrored (s : InstructionSet) : List Statement → List Report → List Step → Prop where
  | nil : Mirrored s [] [] []
  | run {st : Statement} {a : Action} {id : String} {i : Instruction} {sts : List Statement}
      {reports : List Report} {steps : List Step} (hst : st.action? = some a)
      (hi : s.get? id = some i) (haction : i.action = a) (hrest : Mirrored s sts reports steps) :
      Mirrored s (st :: sts) (.plain (.ok id) [id] :: reports) (.run id :: steps)
  | branch {c : Expr} {y n : NameSet} {id : String} {i : Instruction} {yes no sts : List Statement}
      {yesReports noReports reports : List Report} {yesSteps noSteps steps : List Step}
      (hi : s.get? id = some i) (haction : i.action = .branch c y n)
      (hyes : Mirrored s yes yesReports yesSteps) (hno : Mirrored s no noReports noSteps)
      (hrest : Mirrored s sts reports steps) :
      Mirrored s (.branch c yes no :: sts)
        (.branch (.ok id) [id] yesReports noReports :: reports)
        (.branch id yesSteps noSteps :: steps)

/-- The instructions of the steps stand in a line from one frontier to another: each depends on the
frontier before it and is the frontier behind it. The arms of a branch stand in lines that start
where the branch does, and the branch names the ends of these lines. -/
inductive Laid (s : InstructionSet) : List String → List Step → List String → Prop where
  | nil {entry : List String} : Laid s entry [] entry
  | run {entry exit : List String} {id : String} {i : Instruction} {rest : List Step}
      (hi : s.get? id = some i) (hdeps : i.dependsOn = NameSet.ofList entry)
      (harms : i.arms? = none) (hrest : Laid s [id] rest exit) :
      Laid s entry (.run id :: rest) exit
  | branch {entry yesExit noExit exit : List String} {id : String} {i : Instruction}
      {yes no rest : List Step} (hi : s.get? id = some i)
      (hdeps : i.dependsOn = NameSet.ofList entry)
      (harms : i.arms? =
        some (NameSet.ofList (armIds entry yesExit), NameSet.ofList (armIds entry noExit)))
      (hyes : Laid s entry yes yesExit) (hno : Laid s entry no noExit)
      (hrest : Laid s [id] rest exit) : Laid s entry (.branch id yes no :: rest) exit

section

variable {s s' : InstructionSet}

lemma Mirrored.mono (hle : ∀ id i, s.get? id = some i → s'.get? id = some i)
    {sts : List Statement} {reports : List Report} {steps : List Step}
    (h : Mirrored s sts reports steps) : Mirrored s' sts reports steps := by
  induction h with
  | nil => exact .nil
  | run hst hi haction _ ih => exact .run hst (hle _ _ hi) haction ih
  | branch hi haction _ _ _ ihyes ihno ihrest =>
    exact .branch (hle _ _ hi) haction ihyes ihno ihrest

lemma Laid.mono (hle : ∀ id i, s.get? id = some i → s'.get? id = some i)
    {entry exit : List String} {steps : List Step} (h : Laid s entry steps exit) :
    Laid s' entry steps exit := by
  induction h with
  | nil => exact .nil
  | run hi hdeps harms _ ih => exact .run (hle _ _ hi) hdeps harms ih
  | branch hi hdeps harms _ _ _ ihyes ihno ihrest =>
    exact .branch (hle _ _ hi) hdeps harms ihyes ihno ihrest

lemma Mirrored.append {sts sts' : List Statement} {reports reports' : List Report}
    {steps steps' : List Step} (h : Mirrored s sts reports steps)
    (h' : Mirrored s sts' reports' steps') :
    Mirrored s (sts ++ sts') (reports ++ reports') (steps ++ steps') := by
  induction h with
  | nil => exact h'
  | run hst hi haction _ ih => exact .run hst hi haction ih
  | branch hi haction hyes hno _ _ _ ih => exact .branch hi haction hyes hno ih

lemma Laid.append {entry mid exit : List String} {steps steps' : List Step}
    (h : Laid s entry steps mid) (h' : Laid s mid steps' exit) :
    Laid s entry (steps ++ steps') exit := by
  induction h with
  | nil => exact h'
  | run hi hdeps harms _ ih => exact .run hi hdeps harms (ih h')
  | branch hi hdeps harms hyes hno _ _ _ ih => exact .branch hi hdeps harms hyes hno (ih h')

end

/-! ### Building -/

structure Good (q : Sequence) : Prop where
  frontier : ∀ r ∈ q.frontier, r ∈ q.instructions.ids
  backward : q.instructions.Backward

lemma nextId_notMem (q : Sequence) (tag : String) : q.nextId tag ∉ q.instructions.ids := by
  rw [← InstructionSet.contains_iff, Bool.not_eq_true]
  apply Name.taken_fresh
  intro l hnodup htaken
  have hsub : List.Subperm l q.instructions.ids :=
    List.subperm_of_subset hnodup fun n hn => (InstructionSet.contains_iff _ _).1 (htaken n hn)
  rw [InstructionSet.size, ← Roster.length_keys]
  exact hsub.length_le

lemma numbered_nextId (q : Sequence) (tag : String) :
    Name.Numbered (q.label ++ "_" ++ tag) (q.nextId tag) :=
  Name.fresh_numbered _ _ _

lemma nextId_ne_empty (q : Sequence) (tag : String) : (q.nextId tag).isEmpty = false := by
  obtain heq | ⟨k, heq⟩ := q.numbered_nextId tag
  · simp [heq]
  · simp [heq]

/-- An instruction as it is registered: under an id, and behind the frontier. -/
def placed (q : Sequence) (i : Instruction) : Instruction :=
  { i with
    id := if i.hasId then i.id else q.nextId i.action.tag
    dependsOn := NameSet.ofList (i.dependsOn.toList ++ q.frontier) }

def push (q : Sequence) (i : Instruction) (h : q.instructions.roster.place? i.id = none) :
    Sequence :=
  { q with instructions := q.instructions.push i h, frontier := [i.id] }

lemma hasId_placed (q : Sequence) (i : Instruction) : (q.placed i).hasId = true := by
  cases hid : i.hasId with
  | true =>
    have hkept : (q.placed i).id = i.id := by simp [placed, hid]
    rwa [Instruction.hasId, hkept]
  | false =>
    have hmade : (q.placed i).id = q.nextId i.action.tag := by simp [placed, hid]
    rw [Instruction.hasId, hmade, nextId_ne_empty]
    rfl

/-- **What adding does.** A refusal changes nothing. -/
lemma add_cases (q : Sequence) (i : Instruction) :
    ((q.placed i).id ∈ q.instructions.ids ∨ (q.placed i).id ∈ (q.placed i).dependsOn) ∧
      (∃ e, q.add i = (.error e, q)) ∨
    ∃ hnew, q.add i = (.ok (q.placed i).id, q.push (q.placed i) hnew) := by
  obtain ⟨hwhy, e, he⟩ | ⟨hnew, hok⟩ :=
    InstructionSet.registerOne_cases (s := q.instructions) (q.hasId_placed i)
  · refine .inl ⟨hwhy, e, ?_⟩
    unfold placed at he
    simp only [add, he]
  · refine .inr ⟨hnew, ?_⟩
    unfold placed at hok
    simp only [add, hok]
    rfl

def Rooted (q : Sequence) : Prop := ∀ r ∈ q.frontier, r ∈ q.instructions.ids

lemma Rooted.exists_add {q : Sequence} (hq : q.Rooted) (a : Action) :
    ∃ hnew, q.add { action := a } =
      (.ok (q.nextId a.tag), q.push (q.placed { action := a }) hnew) := by
  have hid : (q.placed { action := a }).id = q.nextId a.tag := rfl
  have hdepends : (q.placed { action := a }).dependsOn = NameSet.ofList q.frontier := rfl
  obtain ⟨hwhy, -⟩ | hok := q.add_cases { action := a }
  · rw [hid, hdepends, NameSet.mem_ofList] at hwhy
    exact absurd (hwhy.elim id (hq _)) (q.nextId_notMem a.tag)
  · exact hok

structure Added (q : Sequence) (a : Action) (id : String) (q' : Sequence) : Prop where
  frontier : q'.frontier = [id]
  good : q'.Good
  kept : ∀ id' i, q.instructions.get? id' = some i → q'.instructions.get? id' = some i
  ids : q'.instructions.ids = q.instructions.ids ++ [id]
  get? : q'.instructions.get? id = some ⟨id, NameSet.ofList q.frontier, a⟩

lemma exists_add {q : Sequence} (hq : q.Good) {a : Action}
    (hrefs : ∀ id, ∀ r ∈ (Instruction.mk id (NameSet.ofList q.frontier) a).references,
      r ∈ q.instructions.ids) :
    ∃ id q', q.add { action := a } = (.ok id, q') ∧ Added q a id q' := by
  obtain ⟨hnew, hadd⟩ := Rooted.exists_add hq.frontier a
  have hplaced : q.placed { action := a } =
    ⟨q.nextId a.tag, NameSet.ofList q.frontier, a⟩ := rfl
  refine ⟨_, _, hadd, rfl, ⟨?_, hq.backward.push hnew (hrefs _)⟩,
    fun id' i hi => InstructionSet.get?_push_of_get? hnew hi, InstructionSet.ids_push hnew, ?_⟩
  · intro r hr
    obtain rfl := List.mem_singleton.1 hr
    rw [push, InstructionSet.ids_push]
    simp
  · rw [push, InstructionSet.get?_push, hplaced, if_pos rfl]

/-- The sequence has grown by the instructions of the given steps, which are those of the
statements. -/
structure Grown (q : Sequence) (sts : List Statement) (reports : List Report) (steps : List Step)
    (q' : Sequence) : Prop where
  good : q'.Good
  kept : ∀ id i, q.instructions.get? id = some i → q'.instructions.get? id = some i
  ids : q'.instructions.ids = q.instructions.ids ++ Step.idsOf steps
  laid : Laid q'.instructions q.frontier steps q'.frontier
  mirrored : Mirrored q'.instructions sts reports steps

lemma Grown.refl {q : Sequence} (hq : q.Good) : Grown q [] [] [] q :=
  ⟨hq, fun _ _ h => h, by simp [Step.idsOf], .nil, .nil⟩

lemma idsOf_append (l l' : List Step) : Step.idsOf (l ++ l') = Step.idsOf l ++ Step.idsOf l' := by
  induction l with
  | nil => rfl
  | cons step l ih => rw [List.cons_append, Step.idsOf, ih, Step.idsOf, List.append_assoc]

lemma Grown.congr {q₀ q q' : Sequence} {sts : List Statement} {reports : List Report}
    {steps : List Step} (h : Grown q₀ sts reports steps q')
    (hinstructions : q₀.instructions = q.instructions) (hfrontier : q₀.frontier = q.frontier) :
    Grown q sts reports steps q' :=
  ⟨h.good, hinstructions ▸ h.kept, hinstructions ▸ h.ids, hfrontier ▸ h.laid, h.mirrored⟩

lemma Grown.trans {q q₁ q₂ : Sequence} {sts sts' : List Statement} {reports reports' : List Report}
    {steps steps' : List Step} (h : Grown q sts reports steps q₁)
    (h' : Grown q₁ sts' reports' steps' q₂) :
    Grown q (sts ++ sts') (reports ++ reports') (steps ++ steps') q₂ :=
  ⟨h'.good, fun id i hi => h'.kept id i (h.kept id i hi),
    by rw [h'.ids, h.ids, idsOf_append, List.append_assoc],
    (h.laid.mono h'.kept).append h'.laid, (h.mirrored.mono h'.kept).append h'.mirrored⟩

lemma Grown.ids_subset {q q' : Sequence} {sts : List Statement} {reports : List Report}
    {steps : List Step} (h : Grown q sts reports steps q') {r : String}
    (hr : r ∈ q.instructions.ids) : r ∈ q'.instructions.ids := by
  rw [h.ids]
  exact List.mem_append_left _ hr

lemma exists_grown_add {q : Sequence} (hq : q.Good) {st : Statement} {a : Action}
    (hst : st.action? = some a) (harms : ∀ c yes no, a ≠ .branch c yes no) :
    ∃ id q', q.add { action := a } = (.ok id, q') ∧ q'.frontier = [id] ∧
      Grown q [st] [.plain (.ok id) [id]] [.run id] q' := by
  have hnone : ∀ id, (Instruction.mk id (NameSet.ofList q.frontier) a).arms? = none := by
    intro id
    cases a with
    | branch c yes no => exact absurd rfl (harms c yes no)
    | _ => rfl
  obtain ⟨id, q', hadd, h⟩ : ∃ id q', q.add { action := a } = (.ok id, q') ∧ Added q a id q' := by
    refine exists_add hq fun id r hr => ?_
    rw [Instruction.references, hnone] at hr
    exact hq.frontier r (NameSet.mem_ofList.1 hr)
  refine ⟨id, q', hadd, h.frontier, h.good, h.kept, h.ids, ?_, .run hst h.get? rfl .nil⟩
  rw [h.frontier]
  exact .run h.get? rfl (hnone id) .nil

lemma mem_of_mem_armIds {entry frontier : List String} {r : String}
    (h : r ∈ armIds entry frontier) : r ∈ frontier := by
  unfold armIds at h
  split at h
  · cases h
  · exact h

lemma exists_grown_branch {q q₁ q₂ : Sequence} (hq : q.Good) {c : Expr} {yes no : List Statement}
    {yesReports noReports : List Report} {yesSteps noSteps : List Step}
    (hyes : Grown q yes yesReports yesSteps q₁)
    (hno : Grown { q₁ with frontier := q.frontier } no noReports noSteps q₂) (depth : ℕ) :
    ∃ id q', { q₂ with frontier := q.frontier, depth := depth }.add
        { action := .branch c (NameSet.ofList (armIds q.frontier q₁.frontier))
            (NameSet.ofList (armIds q.frontier q₂.frontier)) } = (.ok id, q') ∧
      q'.frontier = [id] ∧ Grown q [.branch c yes no]
        [.branch (.ok id) [id] yesReports noReports] [.branch id yesSteps noSteps] q' := by
  have hentry : ∀ r ∈ q.frontier, r ∈ q₂.instructions.ids :=
    fun r hr => hno.ids_subset (hyes.ids_subset (hq.frontier r hr))
  have hgood : Good { q₂ with frontier := q.frontier, depth := depth } :=
    ⟨hentry, hno.good.backward⟩
  obtain ⟨id, q', hadd, h⟩ := exists_add hgood (a := .branch c
    (NameSet.ofList (armIds q.frontier q₁.frontier))
    (NameSet.ofList (armIds q.frontier q₂.frontier))) (by
      intro id r hr
      simp only [Instruction.references, Instruction.arms?, List.mem_append, NameSet.mem_toList,
        NameSet.mem_ofList] at hr
      rcases hr with (hr | hr) | hr
      · exact hentry r hr
      · exact hno.ids_subset (hyes.good.frontier r (mem_of_mem_armIds hr))
      · exact hno.good.frontier r (mem_of_mem_armIds hr))
  refine ⟨id, q', hadd, h.frontier, h.good,
    fun id' i hi => h.kept _ _ (hno.kept _ _ (hyes.kept _ _ hi)), ?_, ?_,
    .branch h.get? rfl ((hyes.mirrored.mono hno.kept).mono h.kept) (hno.mirrored.mono h.kept) .nil⟩
  · have hids : q₂.instructions.ids =
        q.instructions.ids ++ Step.idsOf yesSteps ++ Step.idsOf noSteps := by
      rw [hno.ids, hyes.ids]
    rw [h.ids, hids]
    simp [Step.idsOf, Step.ids]
  · rw [h.frontier]
    exact .branch h.get? rfl rfl ((hyes.laid.mono hno.kept).mono h.kept) (hno.laid.mono h.kept)
      .nil

/-! ### Performing -/

lemma performArm_cons {st : Statement} (hst : st.Plain) {q q₁ q₂ : Sequence} {report : Report}
    {id : String} {rest : List Statement} {reports : List Report}
    (h : perform q st = (report, q₁)) (hok : report.outcome = .ok id)
    (hrest : performArm q₁ rest = (reports, none, q₂)) :
    performArm q (st :: rest) = (report :: reports, none, q₂) := by
  cases hst <;> simp only [performArm, h, hok, hrest]

lemma performArm_grown {sts : List Statement} (hplain : ∀ st ∈ sts, st.Plain)
    (h : ∀ st ∈ sts, ∀ q, Good q → ∃ report id step q', perform q st = (report, q') ∧
      report.outcome = .ok id ∧ Grown q [st] [report] [step] q') {q : Sequence} (hq : q.Good) :
    ∃ reports steps q', performArm q sts = (reports, none, q') ∧ Grown q sts reports steps q' := by
  induction sts generalizing q with
  | nil => exact ⟨[], [], q, by rw [performArm], .refl hq⟩
  | cons st sts ih =>
    rw [List.forall_mem_cons] at hplain h
    obtain ⟨report, id, step, q₁, hperform, hok, hgrown⟩ := h.1 q hq
    obtain ⟨reports, steps, q₂, hrest, hgrown'⟩ := ih hplain.2 h.2 hgrown.good
    exact ⟨report :: reports, step :: steps, q₂, performArm_cons hplain.1 hperform hok hrest,
      hgrown.trans hgrown'⟩

/-- **A plain statement is performed.** -/
theorem perform_grown {st : Statement} (hst : st.Plain) {q : Sequence} (hq : q.Good) :
    ∃ report id step q', perform q st = (report, q') ∧ report.outcome = .ok id ∧
      Grown q [st] [report] [step] q' := by
  induction hst generalizing q with
  | @instruction a harms =>
    have haction : (Statement.instruction { action := a }).action? = some a := rfl
    obtain ⟨id, q', hadd, hfrontier, hgrown⟩ := exists_grown_add hq haction harms
    refine ⟨_, id, _, q', ?_, rfl, hgrown⟩
    rw [perform, hadd]
    simp only [hfrontier]
  | transition next =>
    -- the transition is noted or not, which does not touch the instructions
    obtain ⟨q₀, hq₀, hinstructions, hfrontier₀⟩ : ∃ q₀,
        (if q.depth = 0 then { q with transition := some next } else q) = q₀ ∧
          q₀.instructions = q.instructions ∧ q₀.frontier = q.frontier := by
      refine ⟨_, rfl, ?_⟩
      split <;> exact ⟨rfl, rfl⟩
    have hgood : q₀.Good := ⟨by rw [hinstructions, hfrontier₀]; exact hq.frontier,
      hinstructions ▸ hq.backward⟩
    have haction : (Statement.transition next).action? = some (.transition next) := rfl
    obtain ⟨id, q', hadd, hfrontier, hgrown⟩ := exists_grown_add hgood haction (by simp)
    refine ⟨_, id, _, q', ?_, rfl, hgrown.congr hinstructions hfrontier₀⟩
    rw [perform]
    simp only [hq₀, hadd, hfrontier]
  | @branch c yes no hyes hno ihyes ihno =>
    have hgood : Good { q with depth := q.depth + 1 } := ⟨hq.frontier, hq.backward⟩
    obtain ⟨yesReports, yesSteps, q₁, hyesArm, hyesGrown⟩ :=
      performArm_grown hyes (fun st hst q hq => ihyes st hst hq) hgood
    have hyesGrown : Grown q yes yesReports yesSteps q₁ := hyesGrown.congr rfl rfl
    have hgood₁ : Good { q₁ with frontier := q.frontier } :=
      ⟨fun r hr => hyesGrown.ids_subset (hq.frontier r hr), hyesGrown.good.backward⟩
    obtain ⟨noReports, noSteps, q₂, hnoArm, hnoGrown⟩ :=
      performArm_grown hno (fun st hst q hq => ihno st hst hq) hgood₁
    obtain ⟨id, q', hadd, hfrontier, hgrown⟩ :=
      exists_grown_branch (c := c) hq hyesGrown hnoGrown (q₂.depth - 1)
    refine ⟨_, id, _, q', ?_, rfl, hgrown⟩
    rw [perform]
    simp only [hyesArm, hnoArm, hadd, hfrontier]

/-- **Plain statements are built.** -/
theorem build_grown (label : String) {sts : List Statement} (h : ∀ st ∈ sts, st.Plain) :
    ∃ reports steps q, build label sts = (reports, .ok q) ∧
      Grown { label } sts reports steps q := by
  have hgood : Good { label } := by
    refine ⟨by simp, fun id i hi => ?_⟩
    simp [InstructionSet.get?, InstructionSet.empty, Roster.get?_empty] at hi
  obtain ⟨reports, steps, q, hperform, hgrown⟩ :=
    performArm_grown h (fun st hst q hq => perform_grown (h st hst) hq) hgood
  refine ⟨reports, steps, q, ?_, hgrown⟩
  rw [build, hperform]

end Sequence

end TimeMarch
