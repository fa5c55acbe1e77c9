import Mathlib.Order.Bounds.Defs
import TimeMarch.Proofs.Schedulability

/-!
# The Course of a Schedule

When the outcomes of all branches are known, one way through a schedule is left: its course. Here we
find the ids on the course, and what stands before each of them.
-/

namespace TimeMarch

mutual

/-- The ids on the way through a step, in order, if the branches have the given outcomes. -/
def Step.course (outcome : String → Bool) : Step → List String
  | .run id => [id]
  | .branch id yes no =>
    id :: if outcome id then Step.courseOf outcome yes else Step.courseOf outcome no

def Step.courseOf (outcome : String → Bool) : List Step → List String
  | [] => []
  | step :: rest => step.course outcome ++ Step.courseOf outcome rest

end

lemma Step.courseOf_eq_flatMap (outcome : String → Bool) (l : List Step) :
    Step.courseOf outcome l = l.flatMap (Step.course outcome) := by
  induction l with
  | nil => rfl
  | cons step l ih => rw [Step.courseOf, ih, List.flatMap_cons]

def NameSet.selected (b : Bool) (yes no : NameSet) : NameSet := if b then yes else no

namespace Schedule

open TimeMarch.Graph

/-- A set of ids that contains the roots, and with an id what it depends on and, if it is that of a
branch, the selected arm. -/
structure Closed (s : InstructionSet) (roots : List String) (outcome : String → Bool)
    (ids : Set String) : Prop where
  root : ∀ r ∈ roots, r ∈ ids
  dependency : ∀ id ∈ ids, ∀ i, s.get? id = some i → ∀ d ∈ i.dependsOn, d ∈ ids
  arm : ∀ id ∈ ids, ∀ i yes no, s.get? id = some i → i.arms? = some (yes, no) →
    ∀ a ∈ NameSet.selected (outcome id) yes no, a ∈ ids

section

variable (s : InstructionSet) (outcome : String → Bool)

/-- The ids that are selected in a unit: references lead to them from the roots over dependencies
and selected arms without entering the outer ids. -/
inductive Selected (outer : Std.TreeSet String) (roots : List String) : String → Prop where
  | root {r : String} {i : Instruction} (hr : r ∈ roots) (hout : r ∉ outer)
      (hi : s.get? r = some i) : Selected outer roots r
  | dependency {id d : String} {j : Instruction} (hid : Selected outer roots id)
      (hd : d ∈ dependenciesOf s id) (hout : d ∉ outer) (hj : s.get? d = some j) :
      Selected outer roots d
  | arm {id a : String} {yes no : NameSet} {j : Instruction} (hid : Selected outer roots id)
      (harm : armsOf s id = some (yes, no)) (ha : a ∈ NameSet.selected (outcome id) yes no)
      (hout : a ∉ outer) (hj : s.get? a = some j) : Selected outer roots a

variable {s outcome} {outer : Std.TreeSet String} {roots : List String}

lemma Selected.of_mem_members {id : String} (h : id ∈ (members s outer roots).keys) :
    Selected s outcome outer roots id := by
  rw [mem_members_iff] at h
  induction h with
  | root hid hout hi => exact .root hid ((contains_eq_false_iff outer).1 hout) hi
  | step _ hi hd hout hi' ih =>
    exact .dependency ih ((mem_dependenciesOf s).2 ⟨_, hi, hd⟩)
      ((contains_eq_false_iff outer).1 hout) hi'

lemma Selected.of_arm {id x : String} {yes no : NameSet} (hid : Selected s outcome outer roots id)
    (harm : armsOf s id = some (yes, no))
    (hx : Selected s outcome (inner s outer roots) (NameSet.selected (outcome id) yes no).toList
      x) : Selected s outcome outer roots x := by
  have hout : ∀ {y}, y ∉ inner s outer roots → y ∉ outer :=
    fun hy hmem => hy ((mem_inner s outer roots).2 (.inl hmem))
  induction hx with
  | root hr hr' hi => exact .arm hid harm hr (hout hr') hi
  | dependency _ hd hd' hj ih => exact .dependency ih hd (hout hd') hj
  | arm _ harm' ha ha' hj ih => exact .arm ih harm' ha (hout ha') hj

/-! ### The ids on a course -/

variable (outcome) in
def armCourse (arms : Roster (Plan × Plan)) (m : String) : List String :=
  ((arms.get? m).map fun a => Step.courseOf outcome (if outcome m then a.1 else a.2).steps).getD []

lemma course_stepOf (arms : Roster (Plan × Plan)) (m : String) :
    (stepOf arms m).course outcome = m :: armCourse outcome arms m := by
  unfold stepOf armCourse
  cases arms.get? m with
  | none => simp [Step.course]
  | some a => cases ho : outcome m <;> simp [Step.course, ho]

lemma mem_armCourse {arms : Roster (Plan × Plan)} {m x : String} :
    x ∈ armCourse outcome arms m ↔ ∃ y n, arms.get? m = some (y, n) ∧
      x ∈ Step.courseOf outcome (if outcome m then y else n).steps := by
  unfold armCourse
  cases arms.get? m with
  | none => simp
  | some a =>
    obtain ⟨y, n⟩ := a
    simp

lemma Assembled.courseOf_eq {arms : Roster (Plan × Plan)} {order : List String} {plan : Plan}
    (h : Assembled s outer roots arms order plan) :
    Step.courseOf outcome plan.steps = order.flatMap fun m => m :: armCourse outcome arms m := by
  rw [h.steps, Step.courseOf_eq_flatMap, List.flatMap_map]
  simp only [course_stepOf]

lemma Assembled.mem_course {arms : Roster (Plan × Plan)} {order : List String} {plan : Plan}
    (h : Assembled s outer roots arms order plan) {x : String} :
    x ∈ Step.courseOf outcome plan.steps ↔ x ∈ (members s outer roots).keys ∨
      ∃ m y n, arms.get? m = some (y, n) ∧
        x ∈ Step.courseOf outcome (if outcome m then y else n).steps := by
  rw [h.courseOf_eq, List.mem_flatMap]
  simp only [List.mem_cons, mem_armCourse, h.isOrder.perm.mem_iff]
  constructor
  · rintro ⟨m, hm, rfl | ⟨y, n, harm, hx⟩⟩
    · exact .inl hm
    · exact .inr ⟨m, y, n, harm, hx⟩
  · rintro (hx | ⟨m, y, n, harm, hx⟩)
    · exact ⟨x, hx, .inl rfl⟩
    · exact ⟨m, ((h.arms_iff m y n).1 harm).1, .inr ⟨y, n, harm, hx⟩⟩

lemma selected_of_both {P : List String → Plan → Prop} {yes no : NameSet} {y n : Plan}
    (hy : P yes.toList y) (hn : P no.toList n) (b : Bool) :
    P (NameSet.selected b yes no).toList (if b then y else n) := by
  cases b
  · exact hn
  · exact hy

variable (outcome) in
/-- **The course of a unit goes over what is selected in it.** -/
theorem mem_course_iff {plan : Plan} (h : unit s roots outer = .ok plan) (x : String) :
    x ∈ Step.courseOf outcome plan.steps ↔ Selected s outcome outer roots x := by
  revert x
  refine unit_induction (P := fun roots outer plan => ∀ x,
    x ∈ Step.courseOf outcome plan.steps ↔ Selected s outcome outer roots x) ?_ h
  intro roots outer arms order plan h ih x
  rw [h.mem_course]
  -- the selected arm of a branch in the unit
  have harm : ∀ {m y n}, arms.get? m = some (y, n) → m ∈ (members s outer roots).keys ∧
      ∃ yes no : NameSet, armsOf s m = some (yes, no) ∧ ∀ x,
        x ∈ Step.courseOf outcome (if outcome m then y else n).steps ↔
          Selected s outcome (inner s outer roots)
            (NameSet.selected (outcome m) yes no).toList x := by
    intro m y n hm
    obtain ⟨yes, no, hsome, hy, hn⟩ := ih hm
    exact ⟨((h.arms_iff m y n).1 hm).1, yes, no, hsome, selected_of_both (P := fun r plan => ∀ x,
      x ∈ Step.courseOf outcome plan.steps ↔ Selected s outcome (inner s outer roots) r x)
      hy hn (outcome m)⟩
  constructor
  · rintro (hx | ⟨m, y, n, hm, hx⟩)
    · exact .of_mem_members hx
    · obtain ⟨hmem, yes, no, hsome, hiff⟩ := harm hm
      exact .of_arm (.of_mem_members hmem) hsome ((hiff x).1 hx)
  · intro hx
    -- what is referred to from the course is a member or selected further inside
    have hnext : ∀ {d : String}, d ∉ outer →
        d ∈ (members s outer roots).keys ∨ d ∉ inner s outer roots := by
      intro d hout
      by_cases hd : d ∈ (members s outer roots).keys
      · exact .inl hd
      · exact .inr fun hmem => ((mem_inner s outer roots).1 hmem).elim hout hd
    induction hx with
    | root hr hout hi => exact .inl (mem_members_of_root s outer roots hr hout hi)
    | dependency _ hd hout hj ih =>
      rcases ih with hid | ⟨m, y, n, hm, hid⟩
      · exact .inl (mem_members_of_dependency s outer roots hid hd hout hj)
      · obtain ⟨-, yes, no, -, hiff⟩ := harm hm
        rcases hnext hout with hmem | hnot
        · exact .inl hmem
        · exact .inr ⟨m, y, n, hm, (hiff _).2 (.dependency ((hiff _).1 hid) hd hnot hj)⟩
    | arm _ harm' ha hout hj ih =>
      rcases hnext hout with hmem | hnot
      · exact .inl hmem
      right
      rcases ih with hid | ⟨m, y, n, hm, hid⟩
      · -- a branch in the unit itself
        obtain ⟨y, n, hget⟩ := h.arms_total _ hid _ harm'
        obtain ⟨-, yes, no, hsome, hiff⟩ := harm hget
        obtain ⟨rfl, rfl⟩ := Prod.mk.inj (Option.some.inj (hsome.symm.trans harm'))
        exact ⟨_, y, n, hget, (hiff _).2 (.root ha hnot hj)⟩
      · obtain ⟨-, yes, no, -, hiff⟩ := harm hm
        exact ⟨m, y, n, hm, (hiff _).2 (.arm ((hiff _).1 hid) harm' ha hnot hj)⟩

/-! ### What stands before -/

lemma exists_of_flatMap_eq {l : List String} {f : String → List String} {pre post : List String}
    {x : String} (h : l.flatMap f = pre ++ x :: post) :
    ∃ l₁ m l₂ p q, l = l₁ ++ m :: l₂ ∧ f m = p ++ x :: q ∧ pre = l₁.flatMap f ++ p := by
  induction l generalizing pre with
  | nil => simp at h
  | cons a l ih =>
    rw [List.flatMap_cons, List.append_eq_append_iff] at h
    rcases h with ⟨r, rfl, h⟩ | ⟨r, ha, h⟩
    · -- the element stands in a later part
      obtain ⟨l₁, m, l₂, p, q, rfl, hm, rfl⟩ := ih h
      exact ⟨a :: l₁, m, l₂, p, q, rfl, hm, by simp⟩
    · cases r with
      | nil =>
        have hl : l.flatMap f = [] ++ x :: post := by simpa using h.symm
        obtain ⟨l₁, m, l₂, p, q, rfl, hm, hpre⟩ := ih hl
        refine ⟨a :: l₁, m, l₂, p, q, rfl, hm, ?_⟩
        rw [List.flatMap_cons, List.append_assoc, ← hpre]
        simpa using ha.symm
      | cons b r =>
        obtain ⟨rfl, rfl⟩ := List.cons.inj h
        exact ⟨[], a, l, pre, r, rfl, ha, by simp⟩

variable (outcome) in
/-- **Dependencies stand before**, unless the unit relies on outer ids for them. -/
theorem dependency_before {plan : Plan}
    (hreg : ∀ {id i}, s.get? id = some i → ∀ d ∈ i.dependsOn, ∃ j, s.get? d = some j)
    (h : unit s roots outer = .ok plan) {pre post : List String} {x d : String}
    (hx : Step.courseOf outcome plan.steps = pre ++ x :: post) (hd : d ∈ dependenciesOf s x) :
    d ∈ pre ∨ d ∈ plan.needs ∧ d ∈ outer := by
  revert pre post x d
  refine unit_induction (P := fun roots outer plan => ∀ {pre post x d},
    Step.courseOf outcome plan.steps = pre ++ x :: post → d ∈ dependenciesOf s x →
      d ∈ pre ∨ d ∈ plan.needs ∧ d ∈ outer) ?_ h
  intro roots outer arms order plan h ih pre post x d hx hd
  rw [h.courseOf_eq] at hx
  obtain ⟨l₁, m, l₂, p, q, horder, hm, rfl⟩ := exists_of_flatMap_eq hx
  -- members that `m` waits for are passed before
  have hbefore : d ∈ before s outer roots arms m → d ∈ (members s outer roots).keys →
      d ∈ l₁.flatMap (fun a => a :: armCourse outcome arms a) := by
    intro hd hmem
    have hl₁ : d ∈ l₁ := h.isOrder.behind l₁ m l₂ horder d hd hmem
    exact List.mem_flatMap.2 ⟨d, hl₁, List.mem_cons_self⟩
  have hmem_m : m ∈ (members s outer roots).keys := by
    rw [← h.isOrder.perm.mem_iff, horder]
    simp
  rcases List.cons_eq_append_iff.1 hm with ⟨rfl, hm⟩ | ⟨p', rfl, hcourse⟩
  · obtain ⟨rfl, rfl⟩ := List.cons.inj hm
    by_cases hout : d ∈ outer
    · have hmet : d ∈ metOuter s outer roots (members s outer roots) :=
        (mem_metOuter s outer roots).2 ⟨.inr ⟨m, hmem_m, hd⟩, hout⟩
      exact .inr ⟨(h.needs d).2 (.inl hmet), hout⟩
    · obtain ⟨i, hi, hdi⟩ := (mem_dependenciesOf s).1 hd
      obtain ⟨j, hj⟩ := hreg hi d hdi
      have hmem := mem_members_of_dependency s outer roots hmem_m hd hout hj
      exact .inl (List.mem_append_left _ (hbefore (List.mem_append_left _ hd) hmem))
  · -- inside the selected arm of `m`
    cases hget : arms.get? m with
    | none => simp [armCourse, hget] at hcourse
    | some a =>
    obtain ⟨y, n⟩ := a
    rw [armCourse, hget, Option.map_some, Option.getD_some] at hcourse
    obtain ⟨yes, no, -, hy, hn⟩ := ih hget
    have hneeds : d ∈ p' ∨ d ∈ armNeeds (y, n) ∧ d ∈ inner s outer roots := by
      cases ho : outcome m <;> rw [ho] at hcourse
      · exact (hn hcourse hd).imp_right fun hd => ⟨List.mem_append_right _ hd.1, hd.2⟩
      · exact (hy hcourse hd).imp_right fun hd => ⟨List.mem_append_left _ hd.1, hd.2⟩
    rcases hneeds with hd | ⟨hd, hin⟩
    · exact .inl (List.mem_append_right _ (List.mem_cons_of_mem _ hd))
    · rcases (mem_inner s outer roots).1 hin with hout | hmem
      · have hnot : d ∉ (members s outer roots).keys :=
          fun hmem => notMem_outer_of_mem_members s outer roots hmem hout
        exact .inr ⟨(h.needs d).2 (.inr ⟨m, (y, n), hget, hd, hnot⟩), hout⟩
      · left
        by_cases hdm : d = m
        · simp [hdm]
        · refine List.mem_append_left _ (hbefore (List.mem_append_right _ ?_) hmem)
          rw [List.mem_filter, hget]
          simp [hd, Roster.contains_iff, hmem, hdm]

/-! ### The course of a state -/

lemma Selected.mem_of_closed {id : String} {ids : Set String}
    (h : Selected s outcome outer roots id) (hids : Closed s roots outcome ids) : id ∈ ids := by
  induction h with
  | root hr hout hi => exact hids.root _ hr
  | dependency _ hd hout hj ih =>
    obtain ⟨i, hi, hd⟩ := (mem_dependenciesOf s).1 hd
    exact hids.dependency _ ih i hi _ hd
  | arm _ harm ha hout hj ih =>
    obtain ⟨i, hi, harm⟩ := (armsOf_eq_some s).1 harm
    exact hids.arm _ ih i _ _ hi harm _ ha

lemma Selected.exists_get? {id : String} (h : Selected s outcome outer roots id) :
    ∃ i, s.get? id = some i := by
  cases h <;> exact ⟨_, ‹_›⟩

lemma closed_selected (hroots : ∀ r ∈ roots, ∃ i, s.get? r = some i)
    (hreg : ∀ {id i}, s.get? id = some i → ∀ r ∈ i.references, ∃ j, s.get? r = some j) :
    Closed s roots outcome {id | Selected s outcome ∅ roots id} := by
  refine ⟨fun r hr => ?_, fun id hid i hi d hd => ?_, fun id hid i yes no hi harms a ha => ?_⟩
  · obtain ⟨i, hi⟩ := hroots r hr
    exact .root hr (by simp) hi
  · obtain ⟨j, hj⟩ := hreg hi d (mem_references_of_dependsOn hd)
    exact .dependency hid ((mem_dependenciesOf s).2 ⟨i, hi, hd⟩) (by simp) hj
  · have harm : a ∈ yes ∨ a ∈ no := by
      cases ho : outcome id <;> rw [ho] at ha
      · exact .inr ha
      · exact .inl ha
    obtain ⟨j, hj⟩ := hreg hi a (mem_references_of_arm harms harm)
    exact .arm hid ((armsOf_eq_some s).2 ⟨i, hi, harms⟩) ha (by simp) hj

end

/-- **Schedules are sound on every course.** The schedule of a state of an accepted program goes,
whatever the outcomes, exactly over the least set of ids that contains the roots, what its members
depend on and the selected arms of its branches; and each instruction on the course comes behind all
that it depends on. -/
theorem course_isLeast_and_ordered {instructions : InstructionSet} {states : List State}
    {initial : String} {p : Program} (hp : Program.create instructions states initial = .ok p)
    {name : String} {st : State} (hst : p.state? name = some st) (outcome : String → Bool) :
    ∃ steps, ofRoots p.instructions st.roots = .ok steps ∧
      IsLeast {ids | Closed p.instructions st.roots outcome ids}
        {id | id ∈ Step.courseOf outcome steps} ∧
      ∀ pre id post, Step.courseOf outcome steps = pre ++ id :: post →
        ∃ i, p.instructions.get? id = some i ∧ ∀ d ∈ i.dependsOn, d ∈ pre := by
  have hacc := Program.accepted_of_create hp
  obtain ⟨plan, hplan⟩ := exists_unit_of_accepted hacc hst
  have hcourse : {id | id ∈ Step.courseOf outcome plan.steps} =
      {id | Selected p.instructions outcome ∅ st.roots id} :=
    Set.ext fun id => mem_course_iff outcome hplan id
  refine ⟨plan.steps, bind_eq_ok.2 ⟨plan, hplan, rfl⟩, ?_, ?_⟩
  · rw [hcourse]
    exact ⟨closed_selected (hacc.roots hst) hacc.references,
      fun ids hids id hid => Selected.mem_of_closed hid hids⟩
  · intro pre id post hsplit
    have hid : Selected p.instructions outcome ∅ st.roots id := by
      rw [← mem_course_iff outcome hplan, hsplit]
      simp
    obtain ⟨i, hi⟩ := hid.exists_get?
    refine ⟨i, hi, fun d hd => ?_⟩
    have hbefore := dependency_before outcome
      (fun hi d hd => hacc.references hi d (mem_references_of_dependsOn hd)) hplan hsplit
      ((mem_dependenciesOf p.instructions).2 ⟨i, hi, hd⟩)
    simpa using hbefore

/-- A branch in the arm of a branch, whose own arm depends on an instruction outside of both. -/
def nestedBranches : InstructionSet :=
  (InstructionSet.empty.addAll [
    ⟨"deep", .ofList ["shared"], .abort⟩,
    ⟨"inner", ∅, .branch (.var "c") (.ofList ["deep"]) ∅⟩,
    ⟨"outer", ∅, .branch (.var "c") (.ofList ["inner"]) ∅⟩,
    ⟨"shared", ∅, .assign "k" (.var "c")⟩,
    ⟨"last", .ofList ["outer", "shared"], .transition "s"⟩]).toOption.getD .empty

theorem course_isLeast_and_ordered_nested : ∃ p st,
    Program.create nestedBranches [⟨"s", ["last"], "s"⟩] "s" = .ok p ∧ p.state? "s" = some st ∧
    ∃ steps, ofRoots p.instructions st.roots = .ok steps ∧
      IsLeast {ids | Closed p.instructions st.roots (fun _ => true) ids}
        {id | id ∈ Step.courseOf (fun _ => true) steps} ∧
      ∀ pre id post, Step.courseOf (fun _ => true) steps = pre ++ id :: post →
        ∃ i, p.instructions.get? id = some i ∧ ∀ d ∈ i.dependsOn, d ∈ pre := by
  have hsome : ((Program.create nestedBranches [⟨"s", ["last"], "s"⟩] "s").toOption.bind
      fun p => p.state? "s").isSome = true := by decide +kernel
  obtain ⟨st, hst⟩ := Option.isSome_iff_exists.1 hsome
  obtain ⟨p, hp, hst⟩ := Option.bind_eq_some_iff.1 hst
  rw [toOption_eq_some] at hp
  exact ⟨p, st, hp, hst, course_isLeast_and_ordered hp hst _⟩

end Schedule

end TimeMarch
