import TimeMarch.Proofs.Sessions
import TimeMarch.Proofs.Stores
import TimeMarch.Workbench

/-!
# What an Abandoned Step Leaves Behind

A step stores persistent variables as it goes, and abandoning it does not take them back. So the
stepper is as before, but for what was stored on the way to the abort. If all variables happen to
have their old values, as they do when nothing was stored, trying the step again tells the same.
-/

namespace TimeMarch

namespace Stepper

def stores (s : Stepper) : List (ℕ × Value) :=
  (s.current.bind fun i => (s.code.state? i).map fun sc =>
    Machine.stores s.code sc (host s.code s.functions) s.config.stackLimit sc.ops.toList
      (sc.frame i).toRegisters s.storage).getD []

/-- The values that the next step assigns to persistent variables, in order. -/
def assignments (s : Stepper) : List (String × Value) :=
  s.stores.map fun e => (s.code.persistent.name e.1, e.2)

variable {c : Code} {t : FunctionTable} {s : Stepper} {i : ℕ} {sc : StateCode}

lemma stores_eq (hi : s.current = some i) (hsc : s.code.state? i = some sc) :
    s.stores = Machine.stores s.code sc (host s.code s.functions) s.config.stackLimit
      sc.ops.toList (sc.frame i).toRegisters s.storage := by
  simp [stores, hi, hsc]

lemma react_eq_stepFailed {f : Frame} {result : Except MachineError Yield} {name : String}
    (h : (s.react f result).1 = .error (.stepFailed name)) : result = .ok .aborted := by
  unfold react at h
  split at h
  · cases h
  · cases h
  · rfl
  · dsimp only at h
    split at h <;> cases h
  · cases h

/-- The next step runs the given state, and abandons it. -/
structure Fails (s : Stepper) (i : ℕ) (sc : StateCode) : Prop where
  terminated : s.terminated = false
  current : s.current = some i
  code : s.code.state? i = some sc
  aborted : (s.traceOf i sc).result = .ok .aborted

lemma exists_fails (h : s.Safe c t) {name : String}
    (hfail : .error (.stepFailed name) ∈ (s.step.1.drain s.step.2).1) : ∃ i sc, s.Fails i sc := by
  cases hover : s.terminated with
  | true =>
    obtain ⟨hsame, hdrain⟩ := drain_step_of_terminated hover
    rw [hsame, hdrain] at hfail
    cases List.mem_singleton.1 hfail
  | false =>
    cases hi : s.current with
    | none =>
      have hstep : s.step = (.ofStep (.failed .notSetUp), s) := by simp [step, start, hover, hi]
      rw [hstep, Stream.drain_failed] at hfail
      cases List.mem_singleton.1 hfail
    | some i =>
      obtain ⟨sc, hsc, -⟩ := h.currentState?_eq hi
      rw [drain_step_of_current hover hi hsc] at hfail
      -- the failure is no event, so it is the last item
      have hlast := (List.mem_append.1 hfail).resolve_left (by simp)
      exact ⟨i, sc, hover, hi, hsc, react_eq_stepFailed (List.mem_singleton.1 hlast).symm⟩

namespace Fails

/-- **A step that fails leaves all but the storage alone**, and in the storage what it stored. -/
theorem drain (h : s.Fails i sc) :
    s.step.1.drain s.step.2 = ((s.traceOf i sc).events.map .ok ++ [.error (.stepFailed sc.name)],
      { s with storage := s.storage.setAll s.stores }) := by
  obtain ⟨hover, hi, hsc, haborted⟩ := h
  rw [drain_step_of_current hover hi hsc, haborted, stores_eq hi hsc, ← Machine.play_storage]
  simp [react, StateCode.frame, hsc, traceOf]

lemma sublist (h : s.Fails i sc) {e : ℕ × Value} (he : e ∈ s.stores) :
    List.Sublist [.storePersistent e.1, .abort] sc.ops.toList := by
  rw [stores_eq h.current h.code] at he
  exact Machine.sublist_of_mem_stores _ _ _ h.aborted he

lemma slot_lt (h : s.Fails i sc) (hc : s.code.Sound) {e : ℕ × Value} (he : e ∈ s.stores) :
    e.1 < s.code.persistent.size := by
  obtain ⟨k, hk⟩ := List.mem_iff_getElem?.1 ((h.sublist he).subset List.mem_cons_self)
  rw [Array.getElem?_toList] at hk
  exact (hc.state i sc h.code).inRange k _ hk

lemma exists_of_mem_assignments (h : s.Fails i sc) (hc : s.code.Sound) {x : String} {v : Value}
    (hxv : (x, v) ∈ s.assignments) : ∃ slot, s.code.persistent.slot? x = some slot ∧
      List.Sublist [.storePersistent slot, .abort] sc.ops.toList := by
  obtain ⟨e, he, hname⟩ := List.mem_map.1 hxv
  obtain ⟨y, hy, -⟩ := SymbolTable.exists_slot? (h.slot_lt hc he)
  obtain rfl : y = x := (SymbolTable.name_of_slot? hy).symm.trans (congrArg Prod.fst hname)
  exact ⟨e.1, hy, h.sublist he⟩

lemma contents (h : s.Fails i sc) (hc : s.code.Sound) (w : Storage) (x : String) :
    s.code.contents (w.setAll s.stores) x =
      (s.assignments.reverse.lookup x).or (s.code.contents w x) :=
  s.code.contents_setAll (fun _ he => h.slot_lt hc he) w x

lemma congr (h : s.Fails i sc) {w : Storage} (hw : ∀ slot, w.get? slot = s.storage.get? slot) :
    let s' := { s with storage := w }
    s'.Fails i sc ∧ (s'.traceOf i sc).events = (s.traceOf i sc).events ∧ s'.stores = s.stores := by
  intro s'
  obtain ⟨hover, hi, hsc, haborted⟩ := h
  obtain ⟨hevents, hresult, hstores⟩ := Machine.play_congr s.code sc s.functions
    s.config.stackLimit sc.ops.toList (sc.frame i).toRegisters s.storage hw
  refine ⟨⟨hover, hi, hsc, hresult.trans haborted⟩, hevents, ?_⟩
  rw [stores_eq hi hsc, stores_eq (s := s') hi hsc]
  exact hstores

/-- **A failed step that has changed no variable can be tried again**, and fails in the same way. -/
theorem retry (h : s.Fails i sc) (hc : s.code.Sound)
    (hsame : ∀ x, s.code.contents (s.storage.setAll s.stores) x = s.code.contents s.storage x) :
    let s' := { s with storage := s.storage.setAll s.stores }
    (s'.step.1.drain s'.step.2).1 = (s.step.1.drain s.step.2).1 ∧
      ∀ x, s.code.contents (s'.step.1.drain s'.step.2).2.storage x =
        s.code.contents s.storage x := by
  intro s'
  have hslots := s.code.get?_setAll_of_contents (fun _ he => h.slot_lt hc he) hsame
  obtain ⟨hfails, hevents, hstores⟩ := h.congr hslots
  rw [hfails.drain, h.drain, hevents, hstores]
  refine ⟨rfl, fun x => ?_⟩
  calc s.code.contents ((s.storage.setAll s.stores).setAll s.stores) x
      = (s.assignments.reverse.lookup x).or (s.code.contents (s.storage.setAll s.stores) x) :=
        h.contents hc _ x
    _ = (s.assignments.reverse.lookup x).or (s.code.contents s.storage x) := by rw [hsame]
    _ = s.code.contents (s.storage.setAll s.stores) x := (h.contents hc _ x).symm
    _ = s.code.contents s.storage x := hsame x

end Fails

end Stepper

/-- **What an abandoned step leaves behind.** Take a stepper for the code of an accepted program,
whatever was done with it before, whose next step fails.

The current state stays the current one and the run goes on. A persistent variable has the last
value that the step assigned to it, and if there is none, the value it had. What was assigned was
stored by an operation that stands in front of an abort in the code of the current state. If no
variable has changed, the step can be tried again: it tells the same items, and again no variable
changes. -/
theorem failed_step_keeps_all_but_assignments {instructions : InstructionSet} {states : List State}
    {initial : String} {p : Program} (hp : Program.create instructions states initial = .ok p)
    {reserved : List String} {c : Code} (hc : Code.ofProgram reserved p = .ok c)
    {t : FunctionTable} {config : StepperConfig} {s : Stepper}
    (hs : Stepper.Reached c t config s) {name : String}
    (hfail : .error (.stepFailed name) ∈ (s.step.1.drain s.step.2).1) :
    let items := (s.step.1.drain s.step.2).1
    let s' := (s.step.1.drain s.step.2).2
    s'.current = s.current ∧ s'.terminated = s.terminated ∧
    (∀ x, c.contents s'.storage x =
      (s.assignments.reverse.lookup x).or (c.contents s.storage x)) ∧
    (∀ x v, (x, v) ∈ s.assignments → ∃ i sc slot, s.current = some i ∧ c.state? i = some sc ∧
      c.persistent.slot? x = some slot ∧
      List.Sublist [.storePersistent slot, .abort] sc.ops.toList) ∧
    ((∀ x, c.contents s'.storage x = c.contents s.storage x) →
      (s'.step.1.drain s'.step.2).1 = items ∧
      ∀ x, c.contents (s'.step.1.drain s'.step.2).2.storage x = c.contents s.storage x) := by
  intro items s'
  have hacc := Program.accepted_of_create hp
  have hsound := (Code.of_ofProgram hacc.name_eq hc).sound hacc
  have hsafe := hs.safe hsound
  obtain ⟨i, sc, hfails⟩ := Stepper.exists_fails hsafe hfail
  have hs' : s' = { s with storage := s.storage.setAll s.stores } := congrArg Prod.snd hfails.drain
  obtain ⟨rfl, -, -⟩ := hsafe
  rw [hs']
  refine ⟨rfl, rfl, hfails.contents hsound s.storage, fun x v hxv => ?_, hfails.retry hsound⟩
  obtain ⟨slot, hslot, hsublist⟩ := hfails.exists_of_mem_assignments hsound hxv
  exact ⟨i, sc, slot, hfails.current, hfails.code, hslot, hsublist⟩

def Stepper.errors (items : List Item) : List StepError :=
  items.filterMap fun
    | .ok _ => none
    | .error e => some e

lemma Stepper.mem_of_errors_eq {items : List Item} {e : StepError} (h : errors items = [e]) :
    .error e ∈ items := by
  have hmem : e ∈ errors items := h ▸ List.mem_singleton_self e
  obtain ⟨item, hitem, heq⟩ := List.mem_filterMap.1 hmem
  cases item with
  | ok event => cases heq
  | error e' =>
    obtain rfl := Option.some.inj heq
    exact hitem

def countIfShort : InstructionSet :=
  (InstructionSet.empty.addAll [
    ⟨"show", ∅, .emit (.var "<t>") "final" (.var "<p>n") "n"⟩,
    ⟨"judge", .ofList ["show"], .branch (.binary .gt (.var "<dt>") (.literal (.scalar 1)))
      (.ofList ["fail"]) (.ofList ["count"])⟩,
    ⟨"fail", ∅, .abort⟩,
    ⟨"count", ∅, .assign "<p>n" (.binary .add (.var "<p>n") (.literal (.scalar 1)))⟩]
  ).toOption.getD .empty

theorem failed_step_keeps_all_countIfShort : ∃ p c s,
    Program.create countIfShort [⟨"s", ["judge"], "s"⟩] "s" = .ok p ∧
    Code.ofProgram defaultReserved p = .ok c ∧ Stepper.Reached c (.ofList []) {} s ∧
    .error (.stepFailed "s") ∈ (s.step.1.drain s.step.2).1 ∧
    let s' := (s.step.1.drain s.step.2).2
    (∀ x, c.contents s'.storage x = c.contents s.storage x) ∧
      (s'.step.1.drain s'.step.2).1 = (s.step.1.drain s.step.2).1 := by
  have hsome : ((Program.create countIfShort [⟨"s", ["judge"], "s"⟩] "s").toOption.bind fun p =>
      (Code.ofProgram defaultReserved p).toOption.bind fun c =>
        (Stepper.create c (.ofList []) {}).toOption.bind fun s₀ =>
          let s := (s₀.setUp 0 2 [("<p>n", .scalar 0)]).2
          if Stepper.errors (s.step.1.drain s.step.2).1 = [.stepFailed "s"] ∧
            s.assignments.length = 0
          then some () else none) = some () := by
    decide +kernel
  obtain ⟨p, hp, hsome⟩ := Option.bind_eq_some_iff.1 hsome
  obtain ⟨c, hc, hsome⟩ := Option.bind_eq_some_iff.1 hsome
  obtain ⟨s₀, hs₀, hsome⟩ := Option.bind_eq_some_iff.1 hsome
  rw [toOption_eq_some] at hp hc hs₀
  obtain ⟨herrors, hnone⟩ := (Option.ite_none_right_eq_some.1 hsome).1
  have hreached := (Stepper.Reached.create hs₀).setUp 0 2 [("<p>n", .scalar 0)]
  have hfail := Stepper.mem_of_errors_eq herrors
  obtain ⟨-, -, hvalues, -, hretry⟩ := failed_step_keeps_all_but_assignments hp hc hreached hfail
  rw [List.eq_nil_of_length_eq_zero hnone] at hvalues
  exact ⟨p, c, _, hp, hc, hreached, hfail, hvalues, (hretry hvalues).1⟩

def countAndFail : InstructionSet :=
  (InstructionSet.empty.addAll [
    ⟨"count", ∅, .assign "<p>n" (.binary .add (.var "<p>n") (.literal (.scalar 1)))⟩,
    ⟨"show", .ofList ["count"], .emit (.literal (.scalar 0)) "final" (.var "<p>n") "n"⟩,
    ⟨"fail", .ofList ["show"], .abort⟩]).toOption.getD .empty

/-- A failed step is not undone, and trying it again tells something else. -/
theorem retry_counts_on : ∃ p c s,
    Program.create countAndFail [⟨"s", ["fail"], "s"⟩] "s" = .ok p ∧
    Code.ofProgram defaultReserved p = .ok c ∧ Stepper.Reached c (.ofList []) {} s ∧
    let first := s.step.1.drain s.step.2
    let second := first.2.step.1.drain first.2.step.2
    (s.valueOf? "<p>n").map Value.text = some "0" ∧
    (first.2.valueOf? "<p>n").map Value.text = some "1" ∧
    Stepper.errors first.1 = [.stepFailed "s"] ∧ Stepper.errors second.1 = [.stepFailed "s"] ∧
    (Workbench.events first.1).map Event.text = ["emitted n = 1 at final=0"] ∧
    (Workbench.events second.1).map Event.text = ["emitted n = 2 at final=0"] := by
  have hsome : ((Program.create countAndFail [⟨"s", ["fail"], "s"⟩] "s").toOption.bind fun p =>
      (Code.ofProgram defaultReserved p).toOption.bind fun c =>
        (Stepper.create c (.ofList []) {}).toOption.bind fun s₀ =>
          let s := (s₀.setUp 0 1 [("<p>n", .scalar 0)]).2
          let first := s.step.1.drain s.step.2
          let second := first.2.step.1.drain first.2.step.2
          if (s.valueOf? "<p>n").map Value.text = some "0" ∧
            (first.2.valueOf? "<p>n").map Value.text = some "1" ∧
            Stepper.errors first.1 = [.stepFailed "s"] ∧
            Stepper.errors second.1 = [.stepFailed "s"] ∧
            (Workbench.events first.1).map Event.text = ["emitted n = 1 at final=0"] ∧
            (Workbench.events second.1).map Event.text = ["emitted n = 2 at final=0"]
          then some () else none) = some () := by
    decide +kernel
  obtain ⟨p, hp, hsome⟩ := Option.bind_eq_some_iff.1 hsome
  obtain ⟨c, hc, hsome⟩ := Option.bind_eq_some_iff.1 hsome
  obtain ⟨s₀, hs₀, hsome⟩ := Option.bind_eq_some_iff.1 hsome
  rw [toOption_eq_some] at hp hc hs₀
  exact ⟨p, c, _, hp, hc, (Stepper.Reached.create hs₀).setUp 0 1 [("<p>n", .scalar 0)],
    (Option.ite_none_right_eq_some.1 hsome).1⟩

end TimeMarch
