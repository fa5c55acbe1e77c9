import Mathlib.Data.Set.Insert
import Mathlib.Logic.Relation
import TimeMarch.Proofs.Schedulability

/-!
# What Is Done Before a Step

A step may rely on the steps before it in its own unit and on those before the branches around it,
but not on what an arm has done, since the arm may not have been taken. `Ready` looks at schedules
in this way, so that what it says holds on every way through them.
-/

namespace TimeMarch

def InstructionSet.DependsOn (s : InstructionSet) (id d : String) : Prop :=
  ∃ i, s.get? id = some i ∧ d ∈ i.dependsOn

lemma Program.Accepted.exists_of_dependsOn {p : Program} (hp : p.Accepted) {id d : String}
    (h : p.instructions.DependsOn id d) : ∃ j, p.instructions.get? d = some j := by
  obtain ⟨i, hi, hd⟩ := h
  exact hp.references hi d (Schedule.mem_references_of_dependsOn hd)

def InstructionSet.Settled (s : InstructionSet) (done : Set String) : Prop :=
  ∀ id ∈ done, ∀ d, s.DependsOn id d → d ∈ done

namespace InstructionSet.Settled

variable {s : InstructionSet} {done : Set String} {id d : String}

lemma empty : s.Settled ∅ := by
  simp [Settled]

lemma insert (h : s.Settled done) (hdeps : ∀ d, s.DependsOn id d → d ∈ done) :
    s.Settled (insert id done) := by
  rintro id' (rfl | hid') d hd
  · exact .inr (hdeps d hd)
  · exact .inr (h id' hid' d hd)

lemma mem_of_transGen (h : s.Settled done) (hdeps : ∀ d, s.DependsOn id d → d ∈ done)
    (hpath : Relation.TransGen s.DependsOn id d) : d ∈ done := by
  induction hpath with
  | single hd => exact hdeps _ hd
  | tail _ hd ih => exact h _ ih _ hd

end InstructionSet.Settled

namespace Schedule

open TimeMarch.Graph

/-- Each step finds done what its instruction depends on, where `done` is done beforehand. -/
inductive Ready (s : InstructionSet) : Set String → List Step → Prop where
  | nil {done : Set String} : Ready s done []
  | run {done : Set String} {id : String} {rest : List Step}
      (hdeps : ∀ d, s.DependsOn id d → d ∈ done) (hrest : Ready s (insert id done) rest) :
      Ready s done (.run id :: rest)
  | branch {done : Set String} {id : String} {yes no rest : List Step}
      (hdeps : ∀ d, s.DependsOn id d → d ∈ done) (hyes : Ready s (insert id done) yes)
      (hno : Ready s (insert id done) no) (hrest : Ready s (insert id done) rest) :
      Ready s done (.branch id yes no :: rest)

section

variable {s : InstructionSet} {roots : List String} {outer : Std.TreeSet String}

lemma Ready.cons_stepOf {arms : Roster (Plan × Plan)} {done : Set String} {id : String}
    {rest : List Step} (hdeps : ∀ d, s.DependsOn id d → d ∈ done)
    (harms : ∀ y n, arms.get? id = some (y, n) →
      Ready s (insert id done) y.steps ∧ Ready s (insert id done) n.steps)
    (hrest : Ready s (insert id done) rest) : Ready s done (stepOf arms id :: rest) := by
  unfold stepOf
  split
  · rename_i y n hget
    exact .branch hdeps (harms y n hget).1 (harms y n hget).2 hrest
  · exact .run hdeps hrest

lemma mem_outer_of_mem_needs {plan : Plan} (h : unit s roots outer = .ok plan) {m : String}
    (hm : m ∈ plan.needs) : m ∈ outer := by
  revert m
  refine unit_induction (P := fun _ outer plan => ∀ {m : String}, m ∈ plan.needs → m ∈ outer) ?_ h
  intro roots outer arms order plan h ih m hm
  rcases (h.needs m).1 hm with hmet | ⟨id, ⟨y, n⟩, hget, hneed, hnot⟩
  · exact ((mem_metOuter s outer roots).1 hmet).2
  · obtain ⟨yes, no, -, hy, hn⟩ := ih hget
    have hinner : m ∈ inner s outer roots := (List.mem_append.1 hneed).elim hy hn
    exact ((mem_inner s outer roots).1 hinner).resolve_right hnot

/-- **Units are ready** once what they rely on is done. -/
theorem ready_of_unit (hreg : ∀ {id d}, s.DependsOn id d → ∃ j, s.get? d = some j) {plan : Plan}
    (h : unit s roots outer = .ok plan) {done : Set String} (hdone : ∀ m ∈ plan.needs, m ∈ done) :
    Ready s done plan.steps := by
  revert done
  refine unit_induction (P := fun _ _ plan => ∀ {done : Set String},
    (∀ m ∈ plan.needs, m ∈ done) → Ready s done plan.steps) ?_ h
  intro roots outer arms order plan h ih done hdone
  -- the members in front of the others are done when it is their turn
  have hpost : ∀ pre post : List String, order = pre ++ post →
      Ready s (done ∪ {x | x ∈ pre}) (post.map (stepOf arms)) := by
    intro pre post
    induction post generalizing pre with
    | nil => exact fun _ => .nil
    | cons id post ihpost =>
      intro horder
      have hid : id ∈ (members s outer roots).keys := by
        rw [← h.isOrder.perm.mem_iff, horder]
        simp
      have hbehind : ∀ d ∈ before s outer roots arms id, d ∈ (members s outer roots).keys →
          d ∈ pre := h.isOrder.behind pre id post horder
      have hnext : insert id (done ∪ {x | x ∈ pre}) = done ∪ {x | x ∈ pre ++ [id]} := by
        ext x
        simp only [Set.mem_insert_iff, Set.mem_union, Set.mem_ofPred_eq, List.mem_append,
          List.mem_singleton]
        tauto
      have hneeds : ∀ y n, arms.get? id = some (y, n) → ∀ m ∈ armNeeds (y, n),
          m ∈ insert id (done ∪ {x | x ∈ pre}) := by
        intro y n hget m hm
        by_cases hmem : m ∈ (members s outer roots).keys
        · by_cases hmid : m = id
          · exact .inl hmid
          · refine .inr (.inr (hbehind m (List.mem_append_right _ ?_) hmem))
            rw [List.mem_filter, hget]
            simp [hm, Roster.contains_iff, hmem, hmid]
        · exact .inr (.inl (hdone m ((h.needs m).2 (.inr ⟨id, _, hget, hm, hmem⟩))))
      refine .cons_stepOf (fun d hd => ?_) (fun y n hget => ?_) ?_
      · have hd' : d ∈ dependenciesOf s id := (mem_dependenciesOf s).2 hd
        by_cases hout : d ∈ outer
        · have hmet := (mem_metOuter s outer roots).2 ⟨.inr ⟨id, hid, hd'⟩, hout⟩
          exact .inl (hdone d ((h.needs d).2 (.inl hmet)))
        · obtain ⟨j, hj⟩ := hreg hd
          exact .inr (hbehind d (List.mem_append_left _ hd')
            (mem_members_of_dependency s outer roots hid hd' hout hj))
      · obtain ⟨yes, no, -, hy, hn⟩ := ih hget
        exact ⟨hy fun m hm => hneeds y n hget m (List.mem_append_left _ hm),
          hn fun m hm => hneeds y n hget m (List.mem_append_right _ hm)⟩
      · rw [hnext]
        exact ihpost (pre ++ [id]) (by rw [horder, List.append_assoc, List.singleton_append])
  rw [h.steps]
  have hnil : done ∪ {x | x ∈ ([] : List String)} = done := by simp
  exact hnil ▸ hpost [] order rfl

/-! ### Schedules do not leave what is reachable -/

lemma mem_idsOf_map_stepOf {arms : Roster (Plan × Plan)} {l : List String} {x : String} :
    x ∈ Step.idsOf (l.map (stepOf arms)) ↔ ∃ m ∈ l, x = m ∨ ∃ y n, arms.get? m = some (y, n) ∧
      (x ∈ Step.idsOf y.steps ∨ x ∈ Step.idsOf n.steps) := by
  have hstep : ∀ m, x ∈ (stepOf arms m).ids ↔ x = m ∨ ∃ y n, arms.get? m = some (y, n) ∧
      (x ∈ Step.idsOf y.steps ∨ x ∈ Step.idsOf n.steps) := by
    intro m
    unfold stepOf
    cases arms.get? m with
    | none => simp [Step.ids]
    | some a =>
      obtain ⟨y, n⟩ := a
      simp only [Step.ids, List.mem_append, List.mem_singleton, Option.some.injEq, Prod.mk.injEq,
        ↓existsAndEq, true_and]
      tauto
  induction l with
  | nil => simp [Step.idsOf]
  | cons m l ih => simp [Step.idsOf, hstep, ih]

lemma reachable_of_mem_members {id : String} (h : id ∈ (members s outer roots).keys) :
    Reachable s roots id := by
  rw [mem_members_iff] at h
  induction h with
  | root hid _ hi => exact .root hid rfl hi
  | step _ hi hd _ hi' ih => exact .step ih hi (mem_references_of_dependsOn hd) rfl hi'

lemma reachable_of_arm {id x : String} {i : Instruction} {roots' : List String}
    (hid : Reachable s roots id) (hi : s.get? id = some i) (hsub : ∀ a ∈ roots', a ∈ i.references)
    (hx : Reachable s roots' x) : Reachable s roots x := by
  induction hx with
  | root ha _ hj => exact .step hid hi (hsub _ ha) rfl hj
  | step _ hj hr _ hj' ih => exact .step ih hj hr rfl hj'

theorem reachable_of_mem_idsOf {plan : Plan} (h : unit s roots outer = .ok plan) {x : String}
    (hx : x ∈ Step.idsOf plan.steps) : Reachable s roots x := by
  revert x
  refine unit_induction (P := fun roots _ plan => ∀ {x : String}, x ∈ Step.idsOf plan.steps →
    Reachable s roots x) ?_ h
  intro roots outer arms order plan h ih x hx
  rw [h.steps, mem_idsOf_map_stepOf] at hx
  obtain ⟨m, hm, rfl | ⟨y, n, hget, hx⟩⟩ := hx
  · exact reachable_of_mem_members (h.isOrder.perm.mem_iff.1 hm)
  · obtain ⟨yes, no, harm, hy, hn⟩ := ih hget
    obtain ⟨i, hi, harm⟩ := (armsOf_eq_some s).1 harm
    have hid : Reachable s roots m :=
      reachable_of_mem_members (h.isOrder.perm.mem_iff.1 hm)
    rcases hx with hx | hx
    · exact reachable_of_arm hid hi (fun a ha => mem_references_of_arm harm (.inl ha)) (hy hx)
    · exact reachable_of_arm hid hi (fun a ha => mem_references_of_arm harm (.inr ha)) (hn hx)

theorem ready_of_ofRoots (hreg : ∀ {id d}, s.DependsOn id d → ∃ j, s.get? d = some j)
    {steps : List Step} (h : ofRoots s roots = .ok steps) :
    Ready s ∅ steps ∧ ∀ id ∈ Step.idsOf steps, Reachable s roots id := by
  obtain ⟨plan, hplan, hsteps⟩ := bind_eq_ok.1 h
  obtain rfl : plan.steps = steps := Except.ok.inj hsteps
  refine ⟨ready_of_unit hreg hplan fun m hm => ?_, fun id hid => reachable_of_mem_idsOf hplan hid⟩
  exact absurd (mem_outer_of_mem_needs hplan hm) (by simp)

end

end Schedule

end TimeMarch
