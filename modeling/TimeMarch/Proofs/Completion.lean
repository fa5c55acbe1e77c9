import TimeMarch.Proofs.Simulation
import TimeMarch.Proofs.StepStreams

/-!
# When a State Completes

The code of a state runs to its end exactly if the walk over its schedule does. Then the successor
is the one that the walk has noted, and storage holds the variables that the walk has come to.
-/

namespace TimeMarch

/-- The variables that a walk has come to, if it has not ended. -/
def Walk.goal? (a : Walk) : Option Memory :=
  match a.ending with
  | none => some a.memory
  | some _ => none

lemma Walk.goal?_andThen (a : Walk) (next : Memory → Walk) :
    (a.andThen next).goal? = a.goal?.bind fun m => (next m).goal? := by
  unfold Walk.andThen
  cases ha : a.ending with
  | none => simp only [goal?, ha, Option.bind_some]
  | some e => simp only [goal?, ha, Option.bind_none]

section

variable {p : Program} {c : Code} {s : StateCode} {w₀ w : Storage}

variable (c s) in
lemma Mirrors.fresh (w : Storage) : Mirrors c s w { persistent := c.contents w }
    { locals := Array.replicate s.locals.size none } w := by
  refine ⟨⟨fun _ => rfl, fun _ _ => rfl⟩, by simp, fun x i hi => ?_, rfl⟩
  simp [SymbolTable.slot?_lt hi]

def Trace.Completes (c : Code) (w₀ : Storage) (next : String) (m : Memory) (u : Trace) : Prop :=
  ∃ i, u.result = .ok (.completed i) ∧ c.stateIndex? next = some i ∧
    Stored c w₀ m.persistent u.storage

/-- **A state completes exactly if the walk over its schedule comes to its end.** -/
theorem StateCode.Of.completes {st : State} (hs : s.Of p c.toTables st) (h : c.Of p) {g : Setting}
    (hread : ∀ v ∈ p.literals, c.read v ∈ p.literals → c.read v = g.read v)
    (hresolved : ∀ f ∈ c.functions.symbols.keys, (g.functions.resolve? f).isSome)
    {steps : List Step} (hsteps : Schedule.ofRoots p.instructions st.roots = .ok steps)
    (w : Storage) :
    let walk := Step.walkAllIn g p.instructions steps { persistent := c.contents w }
    let u := playWith c s g.functions g.limit s.ops.toList
      { locals := Array.replicate s.locals.size none } w
    (∀ m, walk.goal? = some m → u.Completes c w (m.transition.getD st.next) m) ∧
      (walk.goal? = none → ∀ i, u.result ≠ .ok (.completed i)) := by
  intro walk u
  obtain ⟨steps', body, hsteps', hcode, hops⟩ := hs.ops
  obtain rfl : steps = steps' := Except.ok.inj (hsteps.symm.trans hsteps')
  have htracks : Tracks c s g.functions g.limit w [.complete] walk u := by
    have := hcode.tracks hread hresolved h.keys (Mirrors.fresh c s w) rfl [.complete]
    rwa [← hops] at this
  generalize walk = walk at htracks ⊢
  generalize u = u at htracks ⊢
  cases htracks with
  | @goes events m r w' hm hstack =>
    refine ⟨fun m' hgoal => ?_, by simp [Walk.goal?]⟩
    obtain rfl : m = m' := Option.some.inj hgoal
    rw [playWith_complete]
    exact ⟨_, rfl, hm.stateIndex?_next h hs, hm.toStored⟩
  | @ends events m w' result e hending hne hw =>
    refine ⟨by simp [Walk.goal?], fun _ i hresult => ?_⟩
    obtain rfl : result = .ok (.completed i) := hresult
    obtain ⟨sc, -, rfl⟩ := Option.map_eq_some_iff.1 hending
    exact hne _ rfl

/-- A state that completes has walked over its schedule, and names the successor noted there. -/
lemma StateCode.Of.exists_goal? {st : State} (hs : s.Of p c.toTables st) (h : c.Of p) {g : Setting}
    (hread : ∀ v ∈ p.literals, c.read v ∈ p.literals → c.read v = g.read v)
    (hresolved : ∀ f ∈ c.functions.symbols.keys, (g.functions.resolve? f).isSome)
    {steps : List Step} (hsteps : Schedule.ofRoots p.instructions st.roots = .ok steps) {i : ℕ}
    (hresult : (playWith c s g.functions g.limit s.ops.toList
      { locals := Array.replicate s.locals.size none } w).result = .ok (.completed i)) :
    ∃ m, (Step.walkAllIn g p.instructions steps { persistent := c.contents w }).goal? = some m ∧
      c.stateIndex? (m.transition.getD st.next) = some i := by
  obtain ⟨hcompletes, hnot⟩ := hs.completes h hread hresolved hsteps w
  cases hgoal : (Step.walkAllIn g p.instructions steps { persistent := c.contents w }).goal? with
  | none => exact absurd hresult (hnot hgoal i)
  | some m =>
    obtain ⟨j, hresult', hindex, -⟩ := hcompletes m hgoal
    rw [hresult, Except.ok.injEq, Yield.completed.injEq] at hresult'
    exact ⟨m, rfl, hresult' ▸ hindex⟩

end

/-! ### Steps -/

deriving instance DecidableEq for Event

namespace Stepper

lemma storage_react (s : Stepper) (f : Frame) (result : Except MachineError Yield) :
    (s.react f result).2.2.storage = s.storage := by
  unfold react
  split <;> rfl

lemma react_eq_stateCompleted {s : Stepper} {f : Frame} {result : Except MachineError Yield}
    {name : String} : (s.react f result).1 = .ok (.stateCompleted name) ↔
      ((s.code.state? f.state).map StateCode.name).getD "" = name ∧
        ∃ next, result = .ok (.completed next) := by
  unfold react
  split
  · simp
  · simp
  · simp
  · dsimp only
    split <;> simp
  · simp

lemma traceOf_eq_playWith {c : Code} {t : FunctionTable} {s : Stepper} (hcode : s.code = c)
    (hfunctions : s.functions = c.resolved t) (i : ℕ) (sc : StateCode) :
    s.traceOf i sc = playWith c sc t s.config.stackLimit sc.ops.toList
      { locals := Array.replicate sc.locals.size none } s.storage := by
  rw [traceOf, hcode, hfunctions]
  rfl

lemma stateCompleted_mem_iff {s : Stepper} {i : ℕ} {sc : StateCode} (hover : s.terminated = false)
    (hi : s.current = some i) (hsc : s.code.state? i = some sc) {name : String} :
    .ok (.stateCompleted name) ∈ (s.step.1.drain s.step.2).1 ↔
      sc.name = name ∧ ∃ next, (s.traceOf i sc).result = .ok (.completed next) := by
  have hevents : .ok (.stateCompleted name) ∉ ((s.traceOf i sc).events.map .ok : List Item) := by
    intro hmem
    obtain ⟨e, he, heq⟩ := List.mem_map.1 hmem
    obtain rfl := Except.ok.inj heq
    rw [traceOf_eq_drive hsc] at he
    cases Machine.isEmitted_of_mem_drive he
  rw [drain_step_of_current hover hi hsc, List.mem_append, or_iff_right hevents,
    List.mem_singleton, eq_comm, react_eq_stateCompleted]
  simp [StateCode.frame, hsc]

def enter (s : Stepper) (name : String) (w : Storage) : Stepper :=
  { s with storage := w, current := s.code.stateIndex? name }

/-- **A step completes the current state exactly if the walk over its schedule comes to its end**,
and then the persistent variables are those of the walk. -/
theorem step_completes {p : Program} {c : Code} (h : c.Of p) {name : String} {st : State}
    (hst : p.state? name = some st) (hname : st.name = name) {g : Setting}
    (hread : ∀ v ∈ p.literals, c.read v ∈ p.literals → c.read v = g.read v)
    {config : StepperConfig} (hlimit : g.limit = config.stackLimit) {s : Stepper}
    (hs : create c g.functions config = .ok s) {steps : List Step}
    (hsteps : Schedule.ofRoots p.instructions st.roots = .ok steps) (w : Storage) :
    let d := (s.enter name w).step.1.drain (s.enter name w).step.2
    let walk := Step.walkAllIn g p.instructions steps { persistent := c.contents w }
    (.ok (.stateCompleted name) ∈ d.1 ↔ walk.goal?.isSome) ∧
      ∀ m, walk.goal? = some m → ∀ x, c.contents d.2.storage x = m.persistent x := by
  obtain ⟨rfl, hresolved⟩ := create_eq_ok hs
  obtain ⟨i, sc, hi, hsc, hof⟩ := h.exists_code hst
  obtain ⟨hcompletes, hnot⟩ := hof.completes h hread hresolved hsteps w
  set s : Stepper := enter _ name w
  intro d walk
  have hplay : s.traceOf i sc = playWith c sc g.functions g.limit sc.ops.toList
      { locals := Array.replicate sc.locals.size none } w := by
    rw [hlimit]
    exact traceOf_eq_playWith rfl rfl i sc
  have hstorage : d.2.storage = (s.traceOf i sc).storage := by
    change (s.step.1.drain s.step.2).2.storage = _
    rw [drain_step_of_current rfl hi hsc, storage_react]
  rw [stateCompleted_mem_iff rfl hi hsc, hstorage, hplay]
  cases hgoal : walk.goal? with
  | none =>
    refine ⟨iff_of_false ?_ (by simp), by simp⟩
    rintro ⟨-, next, hresult⟩
    exact hnot hgoal next hresult
  | some m =>
    obtain ⟨next, hresult, -, hstored⟩ := hcompletes m hgoal
    refine ⟨iff_of_true ⟨hof.name_eq.trans hname, next, hresult⟩ rfl, fun m' hm' => ?_⟩
    obtain rfl := Option.some.inj hm'
    exact hstored.contents

end Stepper

end TimeMarch
