import TimeMarch.Proofs.Sessions
import TimeMarch.Proofs.Trails

/-!
# The Run Follows the State Machine

The current state changes in two ways only: set-up enters the initial state, and a completed state
hands over to its successor. The successor depends on nothing but the step that was completed, from
the variables at its beginning: whatever was abandoned or dropped before leaves no trace in it. To
say so of a history, the stepper with which the latest step began is noted on the way.
-/

namespace TimeMarch

open Stepper

/-! ### When a step begins -/

def Stream.begins (stream : Stream) : Bool :=
  match stream.progress, stream.remaining with
  | .done, _ + 1 => !stream.finished
  | _, _ => false

namespace Session

def begins (x : Session) : Request → Bool
  | .step => true
  | .pull => x.stream.any Stream.begins
  | _ => false

/-- The stepper with which the latest step began, if `begun` is the one before the request. -/
def note (begun : Stepper) (x : Session) (request : Request) : Stepper :=
  if x.begins request then x.stepper else begun

def noteAll (begun : Stepper) : List Request → Session → Stepper
  | [], _ => begun
  | request :: requests, x => noteAll (x.note begun request) requests (x.serve request).2

end Session

/-! ### Handing over -/

def Stepper.setting (s : Stepper) (t : FunctionTable) : Setting :=
  ⟨t, s.code.read, s.config.stackLimit⟩

/-- A state hands over to another. From the variables of the stepper, its schedule is carried out to
the end. What is carried out on the way, the state reaches. The last transition among it names the
successor, and without one it is the declared successor. -/
def Program.HandsOver (p : Program) (t : FunctionTable) (s : Stepper) (name next : String) : Prop :=
  ∃ st ids steps, p.state? name = some st ∧ p.reachable? name = some ids ∧
    Schedule.ofRoots p.instructions st.roots = .ok steps ∧
    let m : Memory := { persistent := s.code.contents s.storage }
    let trail := Step.trailAll (s.setting t) p.instructions steps m
    (Step.walkAllIn (s.setting t) p.instructions steps m).goal?.isSome ∧
    (∀ id ∈ trail, id ∈ ids.keys) ∧ next = (p.instructions.lastSuccessor? trail).getD st.next

/-- A reply follows the state machine: set-up enters the initial state, a state that was completed
was the current one when the step began and hands over, and otherwise nothing changes. -/
def Session.Reply.Follows (p : Program) (t : FunctionTable) (begun before after : Stepper) :
    Session.Reply → Prop
  | .setUp (.ok ()) => after.currentState? = some p.initial
  | .pulled (some (.ok (.stateCompleted name))) => begun.currentState? = some name ∧
    ∃ next, after.currentState? = some next ∧ p.HandsOver t begun name next
  | _ => after.currentState? = before.currentState?

namespace Machine

variable {c : Code} {host : Host Storage} {limit : ℕ} {f f' : Frame} {w w' : Storage}

lemma drive_result_of_emitted {component timeId : ℕ} {time : Float} {value : Value}
    (h : resume c host limit f w = (.ok (.emitted component timeId time value), f', w')) :
    (drive c host limit f w).result = (drive c host limit f' w').result := by
  fun_cases drive c host limit f w with
  | case1 component' timeId' time' value' f₁ w₁ h₁ =>
    obtain ⟨-, rfl, rfl⟩ := Prod.mk.inj (h₁.symm.trans h) |>.imp_right Prod.mk.inj
    rfl
  | case2 result f₁ w₁ hne h₁ =>
    obtain ⟨rfl, -⟩ := Prod.mk.inj (h₁.symm.trans h)
    exact absurd rfl (hne component timeId time value)

lemma drive_result_of_ended {result : Except MachineError Yield}
    (hne : ∀ component timeId time value, result ≠ .ok (.emitted component timeId time value))
    (h : resume c host limit f w = (result, f', w')) :
    (drive c host limit f w).result = result := by
  fun_cases drive c host limit f w with
  | case1 component timeId time value f₁ w₁ h₁ =>
    obtain ⟨rfl, -⟩ := Prod.mk.inj (h₁.symm.trans h)
    exact absurd rfl (hne component timeId time value)
  | case2 result' f₁ w₁ hne' h₁ => exact (Prod.mk.inj (h₁.symm.trans h)).1

end Machine

namespace Stepper

def Progress.Continues (begun s : Stepper) : Progress → Prop
  | running f => ∃ w sc, s = { begun with storage := w } ∧ begun.current = some f.state ∧
    begun.code.state? f.state = some sc ∧
      (Machine.drive begun.code (host begun.code begun.functions) begun.config.stackLimit
        f w).result = (begun.traceOf f.state sc).result
  | _ => True

def Completed (begun : Stepper) (name : String) (after : Stepper) : Prop :=
  ∃ i sc next, begun.current = some i ∧ begun.code.state? i = some sc ∧ sc.name = name ∧
    (begun.traceOf i sc).result = .ok (.completed next) ∧ after.code = begun.code ∧
    after.current = some next

variable {begun s : Stepper}

lemma Progress.Continues.advance {progress : Progress} (h : progress.Continues begun s) :
    (s.advance progress).2.1.Continues begun (s.advance progress).2.2 ∧
      ∀ name, (s.advance progress).1 = some (.ok (.stateCompleted name)) →
        begun.Completed name (s.advance progress).2.2 := by
  cases progress with
  | done => exact ⟨trivial, by simp [Stepper.advance]⟩
  | failed e => exact ⟨trivial, by simp [Stepper.advance]⟩
  | running f =>
    obtain ⟨w, sc, rfl, hcurrent, hsc, hdrive⟩ := h
    rcases hresume : Machine.resume begun.code (host begun.code begun.functions)
      begun.config.stackLimit f w with ⟨result, f', w'⟩
    have hstate := Machine.state_of_resume hresume
    simp only [Stepper.advance, hresume]
    rcases result with e | y
    · exact ⟨trivial, by simp [react]⟩
    · cases y with
      | emitted component timeId time value =>
        refine ⟨⟨w', sc, rfl, hstate ▸ hcurrent, hstate ▸ hsc, ?_⟩, by simp [react]⟩
        rw [← Machine.drive_result_of_emitted hresume, hdrive, hstate]
      | completed next =>
        refine ⟨trivial, fun name hname => ?_⟩
        rw [Machine.drive_result_of_ended (by simp) hresume] at hdrive
        have hsc' : begun.code.state? f'.state = some sc := hstate ▸ hsc
        refine ⟨f.state, sc, next, hcurrent, hsc, ?_, hdrive.symm, rfl, rfl⟩
        simpa [react, hsc'] using hname
      | aborted => exact ⟨trivial, by simp [react]⟩
      | raised i =>
        refine ⟨trivial, fun name hname => ?_⟩
        simp only [react] at hname
        split at hname <;> cases hname

variable {c : Code} {t : FunctionTable}

lemma Safe.continues_start (h : s.Safe c t) : s.start.1.Continues s s := by
  unfold Stepper.start
  split
  · trivial
  · split
    · trivial
    · rename_i i hi
      obtain ⟨sc, hsc, -⟩ := h.currentState?_eq hi
      rw [Frame.start, hsc]
      exact ⟨s.storage, sc, rfl, hi, hsc, congrArg Trace.result (traceOf_eq_drive hsc).symm⟩

/-- **A stream carries on the step it has begun**, or begins another one. -/
theorem Progress.Continues.next (hc : c.Sound) (h : s.Safe c t) {stream : Stream}
    (hstream : stream.progress.Continues begun s) :
    let begun' := if stream.begins then s else begun
    (stream.next s).2.1.progress.Continues begun' (stream.next s).2.2 ∧
      ∀ name, (stream.next s).1 = some (.ok (.stateCompleted name)) →
        begun'.Completed name (stream.next s).2.2 := by
  obtain ⟨remaining, progress, finished⟩ := stream
  cases finished with
  | true =>
    have hbegins : Stream.begins ⟨remaining, progress, true⟩ = false := by
      unfold Stream.begins
      split <;> rfl
    simp only [hbegins]
    exact ⟨hstream, by simp [Stream.next]⟩
  | false =>
    cases progress with
    | running f => exact hstream.advance
    | failed e => exact hstream.advance
    | done =>
      cases remaining with
      | zero => exact ⟨trivial, by simp [Stream.next]⟩
      | succ n =>
        have hadvance := h.continues_start.advance
        have hnext : Stream.next ⟨n + 1, .done, false⟩ s =
            Stream.pull { remaining := n, progress := s.start.1 } s := by
          simp only [Stream.next, (h.begun hc).2]
          rfl
        rw [hnext]
        exact hadvance

lemma currentState?_congr {s' : Stepper} (hcode : s'.code = s.code)
    (hcurrent : s'.current = s.current) : s'.currentState? = s.currentState? := by
  rw [currentState?, currentState?, hcode, hcurrent]

/-- **A completed state hands over**, as its walk from the beginning of the step says. -/
theorem Completed.handsOver {p : Program} (hp : p.Accepted) (h : c.Of p)
    (hresolved : ∀ f ∈ c.functions.symbols.keys, (t.resolve? f).isSome) (hbegun : begun.Safe c t)
    {name : String} {after : Stepper} (hdone : begun.Completed name after) :
    begun.currentState? = some name ∧
      ∃ next, after.currentState? = some next ∧ p.HandsOver t begun name next := by
  obtain ⟨i, sc, k, hi, hsc, rfl, hresult, hcode, hafter⟩ := hdone
  obtain ⟨sc', hsc', hname⟩ := hbegun.currentState?_eq hi
  obtain rfl : sc = sc' := Option.some.inj (hsc.symm.trans hsc')
  refine ⟨hname, ?_⟩
  -- the state and its schedule
  rw [hbegun.code] at hsc
  obtain ⟨st, hst, hof⟩ := h.exists_state hsc
  obtain ⟨key, hkey⟩ := (Roster.mem_values_iff _ _).1 (List.mem_of_getElem? hst)
  have hst : p.state? sc.name = some st := by
    rw [hof.name_eq, hp.name_eq hkey]
    exact hkey
  obtain ⟨steps, _, hsteps, -⟩ := hof.ops
  have hreachable := (Schedule.ready_of_ofRoots hp.exists_of_dependsOn hsteps).2
  -- what its code does is what the walk says
  rw [traceOf_eq_playWith hbegun.code hbegun.functions] at hresult
  obtain ⟨m, hgoal, hindex⟩ := hof.exists_goal? h (g := begun.setting t)
    (fun v _ _ => by rw [setting, hbegun.code]) hresolved hsteps hresult
  refine ⟨m.transition.getD st.next, ?_, st, Graph.reachable p.instructions st.roots, steps, hst,
    ?_, hsteps, ?_, fun id hid => ?_, ?_⟩
  · rw [currentState?, hafter, hcode, hbegun.code]
    exact h.name_of_stateIndex? hp hindex
  · rw [Program.reachable?, hst, Option.map_some]
  · rw [hbegun.code, hgoal, Option.isSome_some]
  · exact (Graph.mem_reachable_iff _ _ _).2 (hreachable id (Step.mem_idsOf_of_mem_trailAll hid))
  · rw [hbegun.code, Step.transition_walkAllIn hgoal, Option.or_none]

end Stepper

/-! ### Histories -/

namespace Session

structure Noted (c : Code) (t : FunctionTable) (begun : Stepper) (x : Session) : Prop where
  safe : begun.Safe c t
  stream : ∀ stream, x.stream = some stream → stream.progress.Continues begun x.stepper

variable {c : Code} {t : FunctionTable} {begun : Stepper} {x : Session}

lemma Reply.Moves.isSome_current {before after : Stepper} {reply : Reply}
    (h : reply.Moves before after)
    (hbefore : before.current.isSome = true ∨ reply.isReady = true) :
    after.current.isSome = true := by
  unfold Reply.Moves at h
  split at h
  · rw [h, Option.isSome_some]
  · cases hcurrent : after.current with
    | none => simp [currentState?, hcurrent] at h
    | some i => rfl
  · rename_i hsetUp _
    rw [h]
    refine hbefore.resolve_right fun hready => ?_
    unfold Reply.isReady at hready
    split at hready
    · exact hsetUp rfl
    · cases hready

lemma Noted.serve (hc : c.Sound) (h : x.Noted c t begun) (hx : x.Sound c t) (request : Request) :
    (x.serve request).2.Noted c t (x.note begun request) ∧
      ∀ name, (x.serve request).1 = .pulled (some (.ok (.stateCompleted name))) →
        (x.note begun request).Completed name (x.serve request).2.stepper := by
  have halone : ∀ s : Stepper, Noted c t begun ⟨s, none⟩ := fun s => ⟨h.safe, by simp⟩
  cases request with
  | setUp time stepSize context => exact ⟨halone _, by simp [Session.serve]⟩
  | setStepSize stepSize => exact ⟨halone _, by simp [Session.serve]⟩
  | drop => exact ⟨halone _, by simp [Session.serve]⟩
  | run steps =>
    refine ⟨⟨h.safe, fun stream hstream => ?_⟩, by simp [Session.serve]⟩
    obtain rfl := Option.some.inj hstream
    trivial
  | step =>
    have hserve : x.serve .step = (.quiet, ⟨x.stepper, some (.ofStep x.stepper.start.1)⟩) := by
      simp only [Session.serve, step, (hx.stepper.begun hc).2]
    rw [hserve]
    refine ⟨⟨hx.stepper, fun stream hstream => ?_⟩, by simp⟩
    obtain rfl := Option.some.inj hstream
    exact hx.stepper.continues_start
  | pull =>
    obtain ⟨stepper, stream⟩ := x
    cases stream with
    | none => exact ⟨h, by simp [Session.serve]⟩
    | some stream =>
      obtain ⟨hcontinues, hcompleted⟩ := (h.stream stream rfl).next hc hx.stepper
      refine ⟨⟨?_, fun stream' hstream => ?_⟩, fun name hname => ?_⟩
      · unfold note
        split
        · exact hx.stepper
        · exact h.safe
      · obtain rfl := Option.some.inj hstream
        exact hcontinues
      · exact hcompleted name (Reply.pulled.inj hname)

section

variable {p : Program} (hp : p.Accepted) (h : c.Of p)
  (hresolved : ∀ f ∈ c.functions.symbols.keys, (t.resolve? f).isSome)

include hp h hresolved

/-- **Every reply follows the state machine.** -/
theorem Sound.follows (hx : x.Sound c t) (hnoted : x.Noted c t begun) (request : Request) :
    (x.serve request).1.Follows p t (x.note begun request) x.stepper
      (x.serve request).2.stepper := by
  have hc := h.sound hp
  obtain ⟨hsound, -, hmoves⟩ := hx.serve hc hresolved request
  obtain ⟨hnoted', hcompleted⟩ := hnoted.serve hc hx request
  have hcode : (x.serve request).2.stepper.code = x.stepper.code :=
    hsound.stepper.code.trans hx.stepper.code.symm
  have hinitial : c.stateIndex? p.initial = some c.initial :=
    (Roster.place?_congr h.keys p.initial).trans h.initial
  generalize (x.serve request).1 = reply at hmoves hcompleted ⊢
  unfold Reply.Follows
  split
  · have hcurrent : (x.serve request).2.stepper.current = some x.stepper.code.initial := hmoves
    rw [currentState?, hcurrent, hcode, hx.stepper.code]
    exact h.name_of_stateIndex? hp hinitial
  · rename_i name
    exact (hcompleted name rfl).handsOver hp h hresolved hnoted'.safe
  · rename_i hsetUp hpulled
    refine currentState?_congr hcode ?_
    unfold Reply.Moves at hmoves
    split at hmoves
    · exact absurd rfl hsetUp
    · exact absurd rfl (hpulled _)
    · exact hmoves

/-- **The latest step of a history is noted.** -/
theorem Noted.serveAll (hx : x.Sound c t) (hnoted : x.Noted c t begun) (requests : List Request) :
    (Session.serveAll requests x).2.Noted c t (noteAll begun requests x) := by
  induction requests generalizing x begun with
  | nil => exact hnoted
  | cons request requests ih =>
    have hc := h.sound hp
    exact ih (hx.serve hc hresolved request).1 (hnoted.serve hc hx request).1

omit hp h in
theorem Sound.isSome_current (hc : c.Sound) (hx : x.Sound c t) (requests : List Request)
    (hready : x.stepper.current.isSome = true ∨
      ∃ reply ∈ (Session.serveAll requests x).1, reply.isReady = true) :
    (Session.serveAll requests x).2.stepper.current.isSome = true := by
  induction requests generalizing x with
  | nil => exact hready.resolve_right (by simp [Session.serveAll])
  | cons request requests ih =>
    obtain ⟨hsound, -, hmoves⟩ := hx.serve hc hresolved request
    rcases hready with hsome | ⟨reply, hreply, hready⟩
    · exact ih hsound (.inl (hmoves.isSome_current (.inl hsome)))
    · rcases List.mem_cons.1 hreply with rfl | hlater
      · exact ih hsound (.inl (hmoves.isSome_current (.inr hready)))
      · exact ih hsound (.inr ⟨reply, hlater, hready⟩)

end

end Session

/-- **The run follows the state machine.** Take a stepper for the code of an accepted program and
any history of requests.

Whatever is asked next, the reply follows the state machine: set-up enters the initial state, a
state that was completed was the current one when its step began and hands over to the successor
that the last transition of this step names, and to the declared one if no transition was carried
out. Nothing else changes the current state. Once the stepper was set up, it is a state of the
program. -/
theorem run_follows_state_machine {instructions : InstructionSet} {states : List State}
    {initial : String} {p : Program} (hp : Program.create instructions states initial = .ok p)
    {reserved : List String} {c : Code} (hc : Code.ofProgram reserved p = .ok c)
    {t : FunctionTable} {config : StepperConfig} {s : Stepper}
    (hs : Stepper.create c t config = .ok s) (requests : List Session.Request) :
    let history := Session.serveAll requests ⟨s, none⟩
    let begun := Session.noteAll s requests ⟨s, none⟩
    (∀ request, (history.2.serve request).1.Follows p t (history.2.note begun request)
      history.2.stepper (history.2.serve request).2.stepper) ∧
    ((∃ reply ∈ history.1, reply.isReady = true) →
      ∃ name st, history.2.stepper.currentState? = some name ∧ p.state? name = some st) := by
  intro history begun
  have hacc := Program.accepted_of_create hp
  have hof := Code.of_ofProgram hacc.name_eq hc
  have hsound := hof.sound hacc
  obtain ⟨hseq, hresolved⟩ := create_eq_ok hs
  have hsafe : s.Safe c t := hseq ▸ .new c t config
  have hnew : Session.Sound c t ⟨s, none⟩ := ⟨hsafe, by simp⟩
  have hnoted : Session.Noted c t s ⟨s, none⟩ := ⟨hsafe, by simp⟩
  have hend : history.2.Sound c t := (hnew.serveAll hsound hresolved requests).1
  refine ⟨hend.follows hacc hof hresolved (hnoted.serveAll hacc hof hresolved hnew requests),
    fun hready => ?_⟩
  obtain ⟨i, hi⟩ := Option.isSome_iff_exists.1
    (hnew.isSome_current hresolved hsound requests (.inr hready))
  obtain ⟨sc, hsc, hname⟩ := hend.stepper.currentState?_eq hi
  rw [hend.stepper.code] at hsc
  obtain ⟨st, hst⟩ := (Roster.mem_keys_iff _ _).1
    (hof.keys ▸ List.mem_of_getElem? (hof.getElem?_keys hacc hsc))
  exact ⟨sc.name, st, hname, hst⟩

def retryWhilePositive : InstructionSet :=
  (InstructionSet.empty.addAll [
    ⟨"test", ∅, .branch (.binary .gt (.var "<t>") (.literal (.scalar 0))) (.ofList ["again"]) ∅⟩,
    ⟨"again", ∅, .transition "try"⟩]).toOption.getD .empty

def retryThenReset : List Session.Request :=
  [.setUp 1 1 [], .step, .drop, .step, .pull, .setUp 0 1 [], .run 2]

deriving instance DecidableEq for Session.Reply

theorem run_follows_state_machine_retry : ∃ p c s,
    Program.create retryWhilePositive [⟨"try", ["test"], "done"⟩, ⟨"done", [], "done"⟩] "try" =
      .ok p ∧
    Code.ofProgram defaultReserved p = .ok c ∧ Stepper.create c .empty = .ok s ∧
    let history := Session.serveAll retryThenReset ⟨s, none⟩
    let begun := Session.noteAll s retryThenReset ⟨s, none⟩
    history.2.stepper.currentState? = some "try" ∧ (∃ st, p.state? "try" = some st) ∧
    (history.2.serve .pull).1 = .pulled (some (.ok (.stateCompleted "try"))) ∧
    p.HandsOver .empty (history.2.note begun .pull) "try" "done" := by
  have hsome : ((Program.create retryWhilePositive
      [⟨"try", ["test"], "done"⟩, ⟨"done", [], "done"⟩] "try").toOption.bind fun p =>
      (Code.ofProgram defaultReserved p).toOption.bind fun c =>
        (Stepper.create c .empty).toOption.bind fun s =>
          let history := Session.serveAll retryThenReset ⟨s, none⟩
          if history.2.stepper.currentState? = some "try" ∧
            (∃ reply ∈ history.1, reply.isReady = true) ∧
            (history.2.serve .pull).1 = .pulled (some (.ok (.stateCompleted "try"))) ∧
            (history.2.serve .pull).2.stepper.currentState? = some "done" then some () else none) =
      some () := by
    decide +kernel
  obtain ⟨p, hp, hsome⟩ := Option.bind_eq_some_iff.1 hsome
  obtain ⟨c, hc, hsome⟩ := Option.bind_eq_some_iff.1 hsome
  obtain ⟨s, hs, hsome⟩ := Option.bind_eq_some_iff.1 hsome
  rw [toOption_eq_some] at hp hc hs
  obtain ⟨⟨hcurrent, hready, hreply, hafter⟩, -⟩ := Option.ite_none_right_eq_some.1 hsome
  obtain ⟨hfollows, hstate⟩ := run_follows_state_machine hp hc hs retryThenReset
  obtain ⟨name, st, hname, hst⟩ := hstate hready
  obtain rfl : "try" = name := Option.some.inj (hcurrent.symm.trans hname)
  have hpull := hfollows .pull
  rw [hreply] at hpull
  obtain ⟨-, next, hnext, hhands⟩ := hpull
  obtain rfl : "done" = next := Option.some.inj (hafter.symm.trans hnext)
  exact ⟨p, c, s, hp, hc, hs, hcurrent, ⟨st, hst⟩, hreply, hhands⟩

end TimeMarch
