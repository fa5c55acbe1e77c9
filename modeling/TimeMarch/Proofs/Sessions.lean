import TimeMarch.Proofs.Safety
import TimeMarch.Proofs.StepStreams

/-!
# Sessions

A caller sets a stepper up, changes its step size, begins streams, asks them for items and drops
them, in any order and as often as it likes. A session is a stepper with the stream that the caller
has at hand; it serves one request after another. What is told in reply says all about the current
state and about whether the run is over: nothing else ever changes them.
-/

namespace TimeMarch

open Stepper

/-- A stepper and the stream at hand. As long as there is one the stepper is used through it, so
every other request drops it. -/
structure Session where
  stepper : Stepper
  stream : Option Stream := none

namespace Session

inductive Request where
  | setUp (time stepSize : Float) (context : List (String × Value))
  | setStepSize (stepSize : Float)
  | step
  | run (steps : ℕ)
  | pull
  | drop

inductive Reply where
  | setUp (result : Except StepperError Unit)
  | pulled (item : Option Item)
  | quiet

def serve (x : Session) : Request → Reply × Session
  | .setUp time stepSize context =>
    let (result, stepper) := x.stepper.setUp time stepSize context
    (.setUp result, ⟨stepper, none⟩)
  | .setStepSize stepSize => (.quiet, ⟨x.stepper.setStepSize stepSize, none⟩)
  | .step =>
    let (stream, stepper) := x.stepper.step
    (.quiet, ⟨stepper, some stream⟩)
  | .run steps => (.quiet, ⟨x.stepper, some (run steps)⟩)
  | .pull =>
    match x.stream with
    | none => (.quiet, x)
    | some stream =>
      let (item, stream, stepper) := stream.next x.stepper
      (.pulled item, ⟨stepper, some stream⟩)
  | .drop => (.quiet, ⟨x.stepper, none⟩)

def serveAll : List Request → Session → List Reply × Session
  | [], x => ([], x)
  | request :: requests, x =>
    let (reply, x) := x.serve request
    let (replies, x) := serveAll requests x
    (reply :: replies, x)

namespace Reply

def isReady : Reply → Bool
  | setUp (.ok ()) => true
  | _ => false

def isFatal : Reply → Bool
  | pulled (some (.error (.raised _ _))) | pulled (some (.error (.execution _))) => true
  | _ => false

/-- What a reply says about the current state: set-up enters the initial one, a completed state was
the current one and has a successor, and otherwise nothing has changed. -/
def Moves (before after : Stepper) : Reply → Prop
  | setUp (.ok ()) => after.current = some before.code.initial
  | pulled (some (.ok (.stateCompleted name))) =>
    before.currentState? = some name ∧ after.currentState?.isSome
  | _ => after.current = before.current

/-- Whether the run is over, if it was or was not before the reply. -/
def mark (ended : Bool) (r : Reply) : Bool := !r.isReady && (ended || r.isFatal)

@[simp] lemma mark_quiet (ended : Bool) : quiet.mark ended = ended := by
  simp [mark, isReady, isFatal]

@[simp] lemma mark_pulled (ended : Bool) (item : Option Item) :
    (pulled item).mark ended = (ended || (pulled item).isFatal) := by
  simp [mark, isReady]

@[simp] lemma mark_setUp_error (ended : Bool) (e : StepperError) :
    (setUp (.error e)).mark ended = ended := by
  simp [mark, isReady, isFatal]

lemma foldl_mark (ended : Bool) (replies : List Reply) :
    replies.foldl mark ended = true ↔
      (ended = true ∧ ∀ r ∈ replies, r.isReady = false) ∨
        ∃ earlier reply later, replies = earlier ++ reply :: later ∧ reply.isFatal = true ∧
          ∀ r ∈ later, r.isReady = false := by
  induction replies generalizing ended with
  | nil => simp
  | cons r replies ih =>
    rw [List.foldl_cons, ih, List.forall_mem_cons]
    have hready : r.isFatal = true → r.isReady = false := by
      unfold isFatal isReady
      split <;> simp
    constructor
    · rintro (⟨hmark, hlater⟩ | ⟨earlier, reply, later, rfl, hfatal, hlater⟩)
      · simp only [mark, Bool.and_eq_true, Bool.not_eq_true', Bool.or_eq_true] at hmark
        rcases hmark with ⟨hr, hover | hfatal⟩
        · exact .inl ⟨hover, hr, hlater⟩
        · exact .inr ⟨[], r, replies, rfl, hfatal, hlater⟩
      · exact .inr ⟨r :: earlier, reply, later, rfl, hfatal, hlater⟩
    · rintro (⟨hover, hr, hlater⟩ | ⟨earlier, reply, later, heq, hfatal, hlater⟩)
      · exact .inl ⟨by simp [mark, hover, hr], hlater⟩
      · cases earlier with
        | nil =>
          obtain ⟨rfl, rfl⟩ := List.cons.inj heq
          exact .inl ⟨by simp [mark, hfatal, hready hfatal], hlater⟩
        | cons r' earlier =>
          obtain ⟨rfl, rfl⟩ := List.cons.inj heq
          exact .inr ⟨earlier, reply, later, rfl, hfatal, hlater⟩

end Reply

end Session

/-! ### One item -/

lemma Frame.start_state {c : Code} {i : ℕ} {f : Frame} (h : Frame.start c i = .ok f) :
    f.state = i := by
  unfold Frame.start at h
  split at h
  · cases h
    rfl
  · cases h

namespace Stepper

def Progress.Begun (s : Stepper) : Progress → Prop
  | running f => s.current = some f.state
  | failed e => e = .terminated ∨ e = .notSetUp
  | done => True

open Session

/-- What an item says is what has become of the stepper, and the step can be carried on. -/
structure Told (s : Stepper) (item : Option Item) (progress : Progress) (s' : Stepper) : Prop where
  begun : progress.Begun s'
  terminated : s'.terminated = (Reply.pulled item).mark s.terminated
  moves : (Reply.pulled item).Moves s s'

variable {c : Code} {t : FunctionTable} {s : Stepper}

lemma Told.nothing {progress : Progress} (h : progress.Begun s) : Told s none progress s :=
  ⟨h, by simp [Reply.isFatal], rfl⟩

lemma Safe.currentState?_eq (h : s.Safe c t) {i : ℕ} (hi : s.current = some i) :
    ∃ sc, s.code.state? i = some sc ∧ s.currentState? = some sc.name := by
  obtain ⟨sc, hsc⟩ := Code.exists_state? (h.current i hi)
  rw [← h.code] at hsc
  exact ⟨sc, hsc, by rw [currentState?, hi, Option.bind_some, hsc, Option.map_some]⟩

lemma Safe.told_react (h : s.Safe c t) {f : Frame} (hf : s.current = some f.state)
    {result : Except MachineError Yield} (hresult : f.Handover c t result) (w : Storage) :
    let q := Stepper.react { s with storage := w } f result
    Told s (some q.1) q.2.1 q.2.2 := by
  obtain ⟨sc, hsc, hname⟩ := h.currentState?_eq hf
  rcases result with e | y
  · exact ⟨trivial, by simp [Stepper.react, Reply.isFatal], rfl⟩
  · cases y with
    | emitted component timeId time value =>
      exact ⟨hf, by simp [Stepper.react, Reply.isFatal], rfl⟩
    | completed next =>
      refine ⟨trivial, by simp [Stepper.react, Reply.isFatal], ?_, ?_⟩
      · simp [hname, hsc]
      · have hnext : next < c.states.size := hresult.1
        obtain ⟨sc', hsc'⟩ := Code.exists_state? hnext
        rw [← h.code] at hsc'
        simp [currentState?, Stepper.react, hsc']
    | aborted =>
      exact ⟨trivial, by simp [Stepper.react, Reply.isFatal], rfl⟩
    | raised i =>
      have hi : i < s.code.raises.size := h.code ▸ hresult.1
      have hraise : s.code.raises[i]? = some s.code.raises[i] := Array.getElem?_eq_getElem hi
      refine ⟨trivial, ?_, ?_⟩
      · simp [Stepper.react, hraise, Reply.isFatal]
      · simp [Stepper.react, hraise, Reply.Moves]

variable (hc : c.Sound)

include hc

lemma Safe.begun (h : s.Safe c t) : s.start.1.Begun s ∧ s.start.2 = s := by
  unfold Stepper.start
  split
  · exact ⟨.inl rfl, rfl⟩
  · split
    · exact ⟨.inr rfl, rfl⟩
    · rename_i i hi
      obtain ⟨f, hf, -⟩ := Frame.start_safe hc (h.current i hi)
      have hbegun : s.current = some f.state := by rw [Frame.start_state hf, hi]
      rw [h.code, hf]
      exact ⟨hbegun, rfl⟩

variable (hresolved : ∀ f ∈ c.functions.symbols.keys, (t.resolve? f).isSome)

include hresolved

lemma Safe.told_advance (h : s.Safe c t) {progress : Progress} (hp : progress.Safe c t)
    (hbegun : progress.Begun s) :
    Told s (s.advance progress).1 (s.advance progress).2.1 (s.advance progress).2.2 := by
  cases progress with
  | running f =>
    have hresume := Frame.Safe.resume hc hresolved hp s.config.stackLimit s.storage
    rw [← h.functions, ← h.code] at hresume
    obtain ⟨hstate, hresult⟩ := hresume
    have hf : s.current = some _ := hbegun.trans (congrArg some hstate.symm)
    exact (h.code ▸ h).told_react hf hresult _
  | failed e =>
    rcases hbegun with rfl | rfl
    · exact ⟨trivial, by simp [Stepper.advance, Reply.isFatal], rfl⟩
    · exact ⟨trivial, by simp [Stepper.advance, Reply.isFatal], rfl⟩
  | done => exact .nothing trivial

/-- **What a stream tells is what has become of the stepper.** -/
theorem Safe.told_next (h : s.Safe c t) {stream : Stream} (hp : stream.progress.Safe c t)
    (hbegun : stream.progress.Begun s) :
    Told s (stream.next s).1 (stream.next s).2.1.progress (stream.next s).2.2 := by
  unfold Stream.next
  split
  · exact .nothing hbegun
  · split
    · exact .nothing hbegun
    · obtain ⟨hstart, hsame⟩ := h.begun hc
      have htold := h.told_advance hc hresolved (h.start hc).1 hstart
      dsimp only
      rw [hsame]
      exact htold
    · exact h.told_advance hc hresolved hp hbegun

end Stepper

/-! ### Histories -/

namespace Session

structure Sound (c : Code) (t : FunctionTable) (x : Session) : Prop where
  stepper : x.stepper.Safe c t
  stream : ∀ stream, x.stream = some stream →
    stream.progress.Safe c t ∧ stream.progress.Begun x.stepper

section

variable {c : Code} {t : FunctionTable} {x : Session} (hc : c.Sound)
  (hresolved : ∀ f ∈ c.functions.symbols.keys, (t.resolve? f).isSome)

include hc hresolved

/-- **A reply says what has become of the stepper**, whatever the request. -/
theorem Sound.serve (h : x.Sound c t) (request : Request) :
    let q := x.serve request
    q.2.Sound c t ∧ q.2.stepper.terminated = q.1.mark x.stepper.terminated ∧
      q.1.Moves x.stepper q.2.stepper := by
  have hstepper := h.stepper
  -- no stream is at hand, or the caller has just dropped it
  have halone : ∀ {s : Stepper}, s.Safe c t → Sound c t ⟨s, none⟩ := fun hs => ⟨hs, by simp⟩
  cases request with
  | setUp time stepSize context =>
    refine ⟨halone (hstepper.setUp hc time stepSize context), ?_⟩
    unfold Session.serve setUp
    dsimp only
    split
    · exact ⟨(Reply.mark_setUp_error _ _).symm, rfl⟩
    · exact ⟨rfl, rfl⟩
  | setStepSize stepSize =>
    exact ⟨halone ⟨hstepper.code, hstepper.functions, hstepper.current⟩,
      (Reply.mark_quiet _).symm, rfl⟩
  | step =>
    obtain ⟨hbegun, hsame⟩ := hstepper.begun hc
    have hserve : x.serve .step = (.quiet, ⟨x.stepper, some (.ofStep x.stepper.start.1)⟩) := by
      simp only [Session.serve, step, hsame]
    rw [hserve]
    refine ⟨⟨hstepper, fun stream hstream => ?_⟩, (Reply.mark_quiet _).symm, rfl⟩
    obtain rfl := Option.some.inj hstream
    exact ⟨(hstepper.start hc).1, hbegun⟩
  | run steps =>
    refine ⟨⟨hstepper, fun stream hstream => ?_⟩, (Reply.mark_quiet _).symm, rfl⟩
    obtain rfl := Option.some.inj hstream
    exact ⟨trivial, trivial⟩
  | pull =>
    obtain ⟨stepper, stream⟩ := x
    cases stream with
    | none => exact ⟨h, (Reply.mark_quiet _).symm, rfl⟩
    | some stream =>
      obtain ⟨hsafe, hbegun⟩ := h.stream stream rfl
      have htold := hstepper.told_next hc hresolved hsafe hbegun
      obtain ⟨-, hsafe', hstepper'⟩ := Stream.next_safe hc hresolved hstepper hsafe
      refine ⟨⟨hstepper', fun stream' hstream => ?_⟩, htold.terminated, htold.moves⟩
      obtain rfl := Option.some.inj hstream
      exact ⟨hsafe', htold.begun⟩
  | drop => exact ⟨halone hstepper, (Reply.mark_quiet _).symm, rfl⟩

/-- **The replies of a history say whether the run is over.** -/
theorem Sound.serveAll (h : x.Sound c t) (requests : List Request) :
    let q := Session.serveAll requests x
    q.2.Sound c t ∧ q.2.stepper.terminated = q.1.foldl Reply.mark x.stepper.terminated := by
  induction requests generalizing x with
  | nil => exact ⟨h, rfl⟩
  | cons request requests ih =>
    obtain ⟨hsound, hterminated, -⟩ := h.serve hc hresolved request
    obtain ⟨hsound', hterminated'⟩ := ih hsound
    refine ⟨hsound', hterminated'.trans ?_⟩
    rw [hterminated]
    rfl

end

end Session

/-- **The protocol of streams.** Take a stepper for the code of an accepted program and any history
of requests.

Its next step tells events that are emitted, one last item, and then nothing for ever. Whatever is
asked next, only set-up and the item that tells of a completed state change the current state. The
run is over if and only if an error was raised or an operation has failed, as far as the caller was
told, and the stepper was not set up since. While it is over a step tells just this and leaves the
whole stepper as it is. -/
theorem step_stream_protocol {instructions : InstructionSet} {states : List State}
    {initial : String} {p : Program} (hp : Program.create instructions states initial = .ok p)
    {reserved : List String} {c : Code} (hc : Code.ofProgram reserved p = .ok c)
    {t : FunctionTable} {config : StepperConfig} {s : Stepper}
    (hs : Stepper.create c t config = .ok s) (requests : List Session.Request) :
    let history := Session.serveAll requests ⟨s, none⟩
    let stepper := history.2.stepper
    (∃ (events : List Event) (last : Item) (s' : Stepper), (∀ e ∈ events, e.isEmitted = true) ∧
      isLast last = true ∧
      stepper.step.1.Tells stepper.step.2 (events.map .ok ++ [last]) s') ∧
    (∀ request, (history.2.serve request).1.Moves stepper (history.2.serve request).2.stepper) ∧
    (stepper.terminated = true ↔ ∃ earlier reply later, history.1 = earlier ++ reply :: later ∧
      reply.isFatal = true ∧ ∀ r ∈ later, r.isReady = false) ∧
    (stepper.terminated = true → stepper.step.2 = stepper ∧
      stepper.step.1.Tells stepper [.error .terminated] stepper) := by
  intro history stepper
  have hacc := Program.accepted_of_create hp
  have hsound := (Code.of_ofProgram hacc.name_eq hc).sound hacc
  obtain ⟨rfl, hresolved⟩ := create_eq_ok hs
  have hbegin : Session.Sound c t ⟨_, none⟩ := ⟨.new c t config, by simp⟩
  obtain ⟨hend, hterminated⟩ := hbegin.serveAll hsound hresolved requests
  refine ⟨?_, fun request => (hend.serve hsound hresolved request).2.2, ?_, fun hover => ?_⟩
  · obtain ⟨events, last, s', hevents, hlast, hdrain⟩ := drain_step stepper
    have htells := Stream.tells_drain stepper.step.1 stepper.step.2
    rw [hdrain] at htells
    exact ⟨events, last, s', hevents, hlast, htells⟩
  · have hmark := Session.Reply.foldl_mark false history.1
    rw [← hterminated] at hmark
    simpa using hmark
  · obtain ⟨hsame, hdrain⟩ := drain_step_of_terminated hover
    have htells := Stream.tells_drain stepper.step.1 stepper
    rw [hdrain] at htells
    exact ⟨hsame, htells⟩

def completeThenRaise : List Session.Request :=
  [.setUp 0 1 [], .step, .pull, .pull, .setUp 1 1 [], .run 2, .pull, .drop]

theorem step_stream_protocol_completeThenRaise : ∃ p c s,
    Program.create stepOrRaise [⟨"s", ["test"], "s"⟩] "s" = .ok p ∧
    Code.ofProgram defaultReserved p = .ok c ∧ Stepper.create c identityTable {} = .ok s ∧
    let history := Session.serveAll completeThenRaise ⟨s, none⟩
    let stepper := history.2.stepper
    (∃ earlier reply later, history.1 = earlier ++ reply :: later ∧ reply.isFatal = true ∧
      ∀ r ∈ later, r.isReady = false) ∧
    stepper.step.2 = stepper ∧ stepper.step.1.Tells stepper [.error .terminated] stepper := by
  have hsome : ((Program.create stepOrRaise [⟨"s", ["test"], "s"⟩] "s").toOption.bind fun p =>
      (Code.ofProgram defaultReserved p).toOption.bind fun c =>
        (Stepper.create c identityTable {}).toOption.bind fun s =>
          if (Session.serveAll completeThenRaise ⟨s, none⟩).2.stepper.terminated then some ()
          else none) = some () := by
    decide +kernel
  obtain ⟨p, hp, hsome⟩ := Option.bind_eq_some_iff.1 hsome
  obtain ⟨c, hc, hsome⟩ := Option.bind_eq_some_iff.1 hsome
  obtain ⟨s, hs, hsome⟩ := Option.bind_eq_some_iff.1 hsome
  rw [toOption_eq_some] at hp hc hs
  have hover := (Option.ite_none_right_eq_some.1 hsome).1
  obtain ⟨-, -, hfatal, htells⟩ := step_stream_protocol hp hc hs completeThenRaise
  exact ⟨p, c, s, hp, hc, hs, hfatal.1 hover, htells hover⟩

end TimeMarch
