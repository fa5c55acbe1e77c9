import Mathlib.Data.List.Pairwise
import Mathlib.Data.List.Nodup
import TimeMarch.Proofs.Course

/-!
# When an Instruction Runs Twice

An arm leaves out what the units around it do, so nothing is repeated along nested branches. Two
branches of one unit do not know of each other, though: what both of them select, both of them run.
This is the only way in which an instruction gets on a course more than once.
-/

namespace TimeMarch.Schedule

open TimeMarch.Graph

section

variable (s : InstructionSet) (outcome : String → Bool)

/-- A unit, given by its outer ids and its roots, that one enters on the course of another: this one
or one that is entered in the selected arm of one of its branches. -/
inductive Entered : Std.TreeSet String → List String → Std.TreeSet String → List String → Prop where
  | here (outer : Std.TreeSet String) (roots : List String) : Entered outer roots outer roots
  | arm {outer outer' : Std.TreeSet String} {roots roots' : List String} {id : String}
      {yes no : NameSet} (hid : id ∈ (members s outer roots).keys)
      (harm : armsOf s id = some (yes, no))
      (hin : Entered (inner s outer roots) (NameSet.selected (outcome id) yes no).toList outer'
        roots') : Entered outer roots outer' roots'

/-- No two branches of a unit select the same instruction. -/
def Apart (outer : Std.TreeSet String) (roots : List String) : Prop :=
  ∀ b ∈ (members s outer roots).keys, ∀ b' ∈ (members s outer roots).keys, b ≠ b' →
    ∀ yes no yes' no' : NameSet, armsOf s b = some (yes, no) → armsOf s b' = some (yes', no') →
      ∀ x, Selected s outcome (inner s outer roots) (NameSet.selected (outcome b) yes no).toList x →
        ¬Selected s outcome (inner s outer roots) (NameSet.selected (outcome b') yes' no').toList x

variable {s outcome} {outer : Std.TreeSet String} {roots : List String}

lemma Selected.notMem_outer {id : String} (h : Selected s outcome outer roots id) : id ∉ outer := by
  cases h <;> assumption

end

section

variable {s : InstructionSet} {outcome : String → Bool} {outer : Std.TreeSet String}
  {roots : List String} {arms : Roster (Plan × Plan)} {order : List String} {plan : Plan}

lemma Assembled.mem_armCourse_iff (h : Assembled s outer roots arms order plan) {m : String}
    {yes no : NameSet} (hm : m ∈ (members s outer roots).keys)
    (harm : armsOf s m = some (yes, no)) (x : String) :
    x ∈ armCourse outcome arms m ↔
      Selected s outcome (inner s outer roots) (NameSet.selected (outcome m) yes no).toList x := by
  obtain ⟨y, n, hget⟩ := h.arms_total m hm _ harm
  obtain ⟨-, yes', no', harm', hy, hn⟩ := (h.arms_iff m y n).1 hget
  obtain ⟨rfl, rfl⟩ := Prod.mk.inj (Option.some.inj (harm.symm.trans harm'))
  rw [armCourse, hget, Option.map_some, Option.getD_some]
  cases outcome m
  · exact mem_course_iff outcome hn x
  · exact mem_course_iff outcome hy x

lemma Assembled.notMem_inner (h : Assembled s outer roots arms order plan) {m x : String}
    (hx : x ∈ armCourse outcome arms m) : x ∉ inner s outer roots := by
  obtain ⟨y, n, hget, -⟩ := mem_armCourse.1 hx
  obtain ⟨hm, yes, no, harm, -⟩ := (h.arms_iff m y n).1 hget
  exact ((h.mem_armCourse_iff hm harm x).1 hx).notMem_outer

lemma Assembled.nodup_course_iff (h : Assembled s outer roots arms order plan) :
    (Step.courseOf outcome plan.steps).Nodup ↔
      (∀ m ∈ (members s outer roots).keys, (armCourse outcome arms m).Nodup) ∧
        Apart s outcome outer roots := by
  have hmem : ∀ {m}, m ∈ order ↔ m ∈ (members s outer roots).keys := h.isOrder.perm.mem_iff
  have hinner : ∀ {m}, m ∈ (members s outer roots).keys → m ∈ inner s outer roots :=
    fun hm => (mem_inner s outer roots).2 (.inr hm)
  have horder : order.Nodup := h.isOrder.perm.nodup_iff.2 (Roster.nodup_keys _)
  rw [h.courseOf_eq, List.nodup_flatMap]
  constructor
  · rintro ⟨hnodup, hpair⟩
    refine ⟨fun m hm => (List.nodup_cons.1 (hnodup m (hmem.2 hm))).2, ?_⟩
    intro b hb b' hb' hne yes no yes' no' harm harm' x hx hx'
    have hsymm : Std.Symm (Function.onFun List.Disjoint fun m => m :: armCourse outcome arms m) :=
      ⟨fun _ _ hdisjoint _ hx hx' => hdisjoint hx' hx⟩
    have hdisjoint := hpair.forall (hmem.2 hb) (hmem.2 hb') hne
    exact hdisjoint (List.mem_cons_of_mem _ ((h.mem_armCourse_iff hb harm x).2 hx))
      (List.mem_cons_of_mem _ ((h.mem_armCourse_iff hb' harm' x).2 hx'))
  · rintro ⟨hnodup, hapart⟩
    refine ⟨fun m hm => List.nodup_cons.2 ⟨fun hx => ?_, hnodup m (hmem.1 hm)⟩, ?_⟩
    · exact h.notMem_inner hx (hinner (hmem.1 hm))
    · refine horder.pairwise_of_forall_ne fun m hm m' hm' hne x hx hx' => ?_
      rcases List.mem_cons.1 hx with rfl | hx <;> rcases List.mem_cons.1 hx' with rfl | hx'
      · exact hne rfl
      · exact h.notMem_inner hx' (hinner (hmem.1 hm))
      · exact h.notMem_inner hx (hinner (hmem.1 hm'))
      · -- on the courses of two arms
        obtain ⟨y, n, hget, -⟩ := mem_armCourse.1 hx
        obtain ⟨y', n', hget', -⟩ := mem_armCourse.1 hx'
        obtain ⟨hb, yes, no, harm, -⟩ := (h.arms_iff m y n).1 hget
        obtain ⟨hb', yes', no', harm', -⟩ := (h.arms_iff m' y' n').1 hget'
        exact hapart m hb m' hb' hne yes no yes' no' harm harm' x
          ((h.mem_armCourse_iff hb harm x).1 hx) ((h.mem_armCourse_iff hb' harm' x).1 hx')

variable (outcome) in
/-- **A unit repeats an instruction** exactly if two branches of a unit that is entered in it select
the same instruction. -/
theorem nodup_course_iff (h : unit s roots outer = .ok plan) :
    (Step.courseOf outcome plan.steps).Nodup ↔
      ∀ o r, Entered s outcome outer roots o r → Apart s outcome o r := by
  refine unit_induction (P := fun roots outer plan => (Step.courseOf outcome plan.steps).Nodup ↔
    ∀ o r, Entered s outcome outer roots o r → Apart s outcome o r) ?_ h
  intro roots outer arms order plan h ih
  rw [h.nodup_course_iff]
  have harm : ∀ {m yes no}, m ∈ (members s outer roots).keys → armsOf s m = some (yes, no) →
      ((armCourse outcome arms m).Nodup ↔ ∀ o r, Entered s outcome (inner s outer roots)
        (NameSet.selected (outcome m) yes no).toList o r → Apart s outcome o r) := by
    intro m yes no hm harm
    obtain ⟨y, n, hget⟩ := h.arms_total m hm _ harm
    obtain ⟨yes', no', harm', hy, hn⟩ := ih hget
    obtain ⟨rfl, rfl⟩ := Prod.mk.inj (Option.some.inj (harm.symm.trans harm'))
    rw [armCourse, hget, Option.map_some, Option.getD_some]
    cases outcome m
    · exact hn
    · exact hy
  constructor
  · rintro ⟨hnodup, hapart⟩ o r hentered
    cases hentered with
    | here => exact hapart
    | arm hid harm' hin => exact (harm hid harm').1 (hnodup _ hid) o r hin
  · intro hall
    refine ⟨fun m hm => ?_, hall outer roots (.here outer roots)⟩
    cases ha : armsOf s m with
    | none =>
      have hget : arms.get? m = none := by
        rw [Option.eq_none_iff_forall_ne_some]
        rintro ⟨y, n⟩ hget
        obtain ⟨-, yes, no, harm', -⟩ := (h.arms_iff m y n).1 hget
        simp [ha] at harm'
      simp [armCourse, hget]
    | some a =>
      obtain ⟨yes, no⟩ := a
      exact (harm hm ha).2 fun o r hin => hall o r (.arm hm ha hin)

end

/-- **What repeats an instruction in a state.** The course of a state of an accepted program goes
over no id twice exactly if in no unit that is entered two branches select the same instruction. -/
theorem course_nodup_iff_apart {instructions : InstructionSet} {states : List State}
    {initial : String} {p : Program} (hp : Program.create instructions states initial = .ok p)
    {name : String} {st : State} (hst : p.state? name = some st) (outcome : String → Bool) :
    ∃ steps, ofRoots p.instructions st.roots = .ok steps ∧
      ((Step.courseOf outcome steps).Nodup ↔ ∀ outer roots,
        Entered p.instructions outcome ∅ st.roots outer roots →
          Apart p.instructions outcome outer roots) := by
  obtain ⟨plan, hplan⟩ := exists_unit_of_accepted (Program.accepted_of_create hp) hst
  exact ⟨plan.steps, bind_eq_ok.2 ⟨plan, hplan, rfl⟩, nodup_course_iff outcome hplan⟩

def twinBranches : InstructionSet :=
  (InstructionSet.empty.addAll [
    ⟨"e", ∅, .emit (.literal (.scalar 0)) "final" (.literal (.scalar 1)) "y"⟩,
    ⟨"b1", ∅, .branch (.literal (.bool true)) (.ofList ["e"]) ∅⟩,
    ⟨"b2", ∅, .branch (.literal (.bool true)) (.ofList ["e"]) ∅⟩]).toOption.getD .empty

/-- Where one of the conditions holds, the branches do not meet. -/
theorem course_nodup_iff_apart_twins : ∃ p st steps,
    Program.create twinBranches [⟨"s", ["b1", "b2"], "s"⟩] "s" = .ok p ∧ p.state? "s" = some st ∧
    ofRoots p.instructions st.roots = .ok steps ∧
    Step.courseOf (· == "b1") steps = ["b1", "e", "b2"] ∧
    ∀ outer roots, Entered p.instructions (· == "b1") ∅ st.roots outer roots →
      Apart p.instructions (· == "b1") outer roots := by
  have hcourse : ((Program.create twinBranches [⟨"s", ["b1", "b2"], "s"⟩] "s").toOption.bind
      fun p => (p.state? "s").bind fun st => (ofRoots p.instructions st.roots).toOption.map
        (Step.courseOf (· == "b1"))) = some ["b1", "e", "b2"] := by decide +kernel
  obtain ⟨p, hp, hcourse⟩ := Option.bind_eq_some_iff.1 hcourse
  obtain ⟨st, hst, hcourse⟩ := Option.bind_eq_some_iff.1 hcourse
  obtain ⟨steps, hsteps, hcourse⟩ := Option.map_eq_some_iff.1 hcourse
  rw [toOption_eq_some] at hp hsteps
  obtain ⟨steps', hsteps', hiff⟩ := course_nodup_iff_apart hp hst (· == "b1")
  obtain rfl := Except.ok.inj (hsteps.symm.trans hsteps')
  refine ⟨p, st, steps, hp, hst, hsteps, hcourse, hiff.1 ?_⟩
  rw [hcourse]
  decide

/-- Both branches run their arm, so the only state of an accepted program emits twice. -/
theorem twins_run_twice : ∃ p st steps,
    Program.create twinBranches [⟨"s", ["b1", "b2"], "s"⟩] "s" = .ok p ∧ p.state? "s" = some st ∧
    ofRoots p.instructions st.roots = .ok steps ∧
    Step.courseOf (fun _ => true) steps = ["b1", "e", "b2", "e"] := by
  have hcourse : ((Program.create twinBranches [⟨"s", ["b1", "b2"], "s"⟩] "s").toOption.bind
      fun p => (p.state? "s").bind fun st => (ofRoots p.instructions st.roots).toOption.map
        (Step.courseOf fun _ => true)) = some ["b1", "e", "b2", "e"] := by decide +kernel
  obtain ⟨p, hp, hcourse⟩ := Option.bind_eq_some_iff.1 hcourse
  obtain ⟨st, hst, hcourse⟩ := Option.bind_eq_some_iff.1 hcourse
  obtain ⟨steps, hsteps, hcourse⟩ := Option.map_eq_some_iff.1 hcourse
  exact ⟨p, st, steps, toOption_eq_some.1 hp, hst,
    toOption_eq_some.1 hsteps, hcourse⟩

end TimeMarch.Schedule
