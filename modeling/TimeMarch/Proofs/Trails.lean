import TimeMarch.Proofs.Completion
import TimeMarch.Proofs.Readiness

/-!
# What a Walk Carries Out

The trail of a walk lists the instructions it carries out, in order. Arms that are not taken do not
appear on it, and an instruction appears as often as it is carried out. So the last transition on
the trail, and no other one, is the one that a walk has noted at its end.
-/

namespace TimeMarch

def Instruction.successor? (i : Instruction) : Option String :=
  match i.action with
  | .transition next => some next
  | _ => none

def InstructionSet.lastSuccessor? (s : InstructionSet) (ids : List String) : Option String :=
  (ids.filterMap fun id => (s.get? id).bind Instruction.successor?).getLast?

lemma InstructionSet.lastSuccessor?_append (s : InstructionSet) (l l' : List String) :
    s.lastSuccessor? (l ++ l') = (s.lastSuccessor? l').or (s.lastSuccessor? l) := by
  simp [lastSuccessor?, List.filterMap_append, List.getLast?_append]

lemma InstructionSet.lastSuccessor?_singleton (s : InstructionSet) (id : String) :
    s.lastSuccessor? [id] = (s.get? id).bind Instruction.successor? := by
  cases h : (s.get? id).bind Instruction.successor? <;> simp [lastSuccessor?, h]

lemma InstructionSet.lastSuccessor?_cons (s : InstructionSet) (id : String) (l : List String) :
    s.lastSuccessor? (id :: l) =
      (s.lastSuccessor? l).or ((s.get? id).bind Instruction.successor?) := by
  rw [← List.singleton_append, lastSuccessor?_append, lastSuccessor?_singleton]

lemma InstructionSet.successor?_of_condition? {s : InstructionSet} {id : String} {c : Expr}
    (h : (s.get? id).bind Instruction.condition? = some c) :
    (s.get? id).bind Instruction.successor? = none := by
  obtain ⟨i, hi, hcondition⟩ := Option.bind_eq_some_iff.1 h
  rw [hi, Option.bind_some]
  unfold Instruction.condition? at hcondition
  unfold Instruction.successor?
  cases haction : i.action <;> simp_all

namespace Step

mutual

/-- The instructions that a walk carries out, in order. -/
def trail (g : Setting) (s : InstructionSet) : Step → Memory → List String
  | run id, _ => [id]
  | branch id yes no, m =>
    ((s.get? id).bind Instruction.condition?).elim [] fun c => id ::
      (c.test g m).toOption.elim [] fun b => if b then trailAll g s yes m else trailAll g s no m

def trailAll (g : Setting) (s : InstructionSet) : List Step → Memory → List String
  | [], _ => []
  | step :: rest, m => trail g s step m ++ (walkIn g s step m).goal?.elim [] (trailAll g s rest)

end

end Step

lemma Walk.goal?_compute {α : Type} (m : Memory) (x : Except MachineError α) (next : α → Walk) :
    (Walk.compute m x next).goal? = x.toOption.bind fun a => (next a).goal? := by
  cases x <;> rfl

lemma Memory.transition_set (m : Memory) (x : String) (v : Value) :
    (m.set x v).transition = m.transition := by
  unfold set
  split <;> rfl

section

variable {g : Setting} {s : InstructionSet}

lemma Instruction.transition_walkIn {i : Instruction} {m m' : Memory}
    (h : (i.action.walkIn g m).goal? = some m') :
    m'.transition = i.successor?.or m.transition := by
  unfold successor?
  cases haction : i.action with
  | assign x e =>
    rw [haction, Action.walkIn, Walk.goal?_compute] at h
    obtain ⟨v, -, hv⟩ := Option.bind_eq_some_iff.1 h
    obtain rfl := Option.some.inj hv
    exact m.transition_set x v
  | branch condition yes no =>
    rw [haction] at h
    obtain rfl := Option.some.inj h
    rfl
  | emit time timeId e component =>
    rw [haction, Action.walkIn] at h
    simp only [Walk.goal?_compute] at h
    obtain ⟨_, -, h⟩ := Option.bind_eq_some_iff.1 h
    obtain ⟨_, -, h⟩ := Option.bind_eq_some_iff.1 h
    obtain ⟨_, -, h⟩ := Option.bind_eq_some_iff.1 h
    obtain rfl := Option.some.inj h
    rfl
  | abort =>
    rw [haction] at h
    cases h
  | raise kind message =>
    rw [haction] at h
    cases h
  | transition next =>
    rw [haction] at h
    obtain rfl := Option.some.inj h
    rfl

mutual

/-- **The last transition that was carried out is the one that is noted.** -/
theorem Step.transition_walkIn {step : Step} {m m' : Memory}
    (h : (step.walkIn g s m).goal? = some m') :
    m'.transition = (s.lastSuccessor? (step.trail g s m)).or m.transition := by
  cases step with
  | run id =>
    rw [Step.walkIn] at h
    rw [Step.trail, InstructionSet.lastSuccessor?_singleton]
    cases hi : s.get? id with
    | none =>
      rw [hi] at h
      obtain rfl := Option.some.inj h
      rfl
    | some i =>
      rw [hi] at h
      exact Instruction.transition_walkIn h
  | branch id yes no =>
    rw [Step.walkIn] at h
    rw [Step.trail]
    cases hc : (s.get? id).bind Instruction.condition? with
    | none =>
      rw [hc] at h
      obtain rfl := Option.some.inj h
      rfl
    | some c =>
      rw [hc] at h
      rw [Walk.goal?_compute] at h
      obtain ⟨b, htest, h⟩ := Option.bind_eq_some_iff.1 h
      rw [Option.elim_some, htest, Option.elim_some, InstructionSet.lastSuccessor?_cons,
        InstructionSet.successor?_of_condition? hc, Option.or_none]
      cases b with
      | true => exact Step.transition_walkAllIn h
      | false => exact Step.transition_walkAllIn h

theorem Step.transition_walkAllIn {steps : List Step} {m m' : Memory}
    (h : (Step.walkAllIn g s steps m).goal? = some m') :
    m'.transition = (s.lastSuccessor? (Step.trailAll g s steps m)).or m.transition := by
  cases steps with
  | nil =>
    obtain rfl := Option.some.inj h
    rfl
  | cons step rest =>
    rw [Step.walkAllIn, Walk.goal?_andThen] at h
    obtain ⟨m₁, hstep, hrest⟩ := Option.bind_eq_some_iff.1 h
    rw [Step.trailAll, hstep, Option.elim_some, InstructionSet.lastSuccessor?_append,
      Option.or_assoc, ← Step.transition_walkIn hstep]
    exact Step.transition_walkAllIn hrest

end

mutual

theorem Step.mem_ids_of_mem_trail {step : Step} {m : Memory} {id : String}
    (h : id ∈ step.trail g s m) : id ∈ step.ids := by
  cases step with
  | run id' => exact h
  | branch id' yes no =>
    rw [Step.trail] at h
    rw [Step.ids, List.mem_append, List.mem_append, List.mem_singleton]
    cases hc : (s.get? id').bind Instruction.condition? with
    | none =>
      rw [hc] at h
      cases h
    | some c =>
      rw [hc, Option.elim_some, List.mem_cons] at h
      rcases h with rfl | h
      · exact .inr rfl
      · cases htest : c.test g m with
        | error e =>
          rw [htest] at h
          cases h
        | ok b =>
          rw [htest] at h
          cases b with
          | true => exact .inl (.inl (Step.mem_idsOf_of_mem_trailAll h))
          | false => exact .inl (.inr (Step.mem_idsOf_of_mem_trailAll h))

theorem Step.mem_idsOf_of_mem_trailAll {steps : List Step} {m : Memory} {id : String}
    (h : id ∈ Step.trailAll g s steps m) : id ∈ Step.idsOf steps := by
  cases steps with
  | nil => cases h
  | cons step rest =>
    rw [Step.idsOf, List.mem_append]
    rw [Step.trailAll, List.mem_append] at h
    rcases h with h | h
    · exact .inl (Step.mem_ids_of_mem_trail h)
    · cases hgoal : (step.walkIn g s m).goal? with
      | none =>
        rw [hgoal] at h
        cases h
      | some m' =>
        rw [hgoal] at h
        exact .inr (Step.mem_idsOf_of_mem_trailAll h)

end

end

end TimeMarch
