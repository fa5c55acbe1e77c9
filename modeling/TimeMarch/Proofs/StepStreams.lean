import TimeMarch.Proofs.Traces

/-!
# What a Stream Tells

A stream that has nothing left to tell never tells anything again, so asking a number of times gives
the items of the stream as far as they go. The stream of a step that is under way tells the events
of its frame, and then what the stepper makes of the end.
-/

namespace TimeMarch

def StateCode.frame (sc : StateCode) (i : ℕ) : Frame :=
  { state := i, locals := Array.replicate sc.locals.size none }

namespace Machine

variable {c : Code} {limit : ℕ}

variable (c limit) in
lemma resumeIn_state {σ : Type} (s : StateCode) (host : Host σ) (f : Frame) (w : σ) :
    (resumeIn c s host limit f w).2.1.state = f.state := by
  fun_induction resumeIn c s host limit f w with
  | case1 f w hip skip r w₁ h ih => exact ih
  | case2 => rfl
  | case3 => rfl
  | case4 => rfl

lemma state_of_resume {σ : Type} {host : Host σ} {f f' : Frame} {w w' : σ}
    {result : Except MachineError Yield} (h : resume c host limit f w = (result, f', w')) :
    f'.state = f.state := by
  unfold resume at h
  split at h
  · exact (congrArg (fun q => q.2.1.state) h).symm.trans (resumeIn_state c limit _ host f w)
  · cases h
    rfl

lemma isEmitted_of_mem_drive {host : Host Storage} {f : Frame} {w : Storage} {e : Event}
    (h : e ∈ (drive c host limit f w).events) : e.isEmitted = true := by
  fun_induction drive c host limit f w with
  | case1 f w component timeId time value f' w' hresume ih =>
    rcases List.mem_cons.1 h with rfl | h
    · rfl
    · exact ih h
  | case2 => cases h

variable (c limit) in
lemma drive_result_ne_emitted (host : Host Storage) (f : Frame) (w : Storage)
    (component timeId : ℕ) (time : Float) (value : Value) :
    (drive c host limit f w).result ≠ .ok (.emitted component timeId time value) := by
  fun_induction drive c host limit f w with
  | case1 f w component' timeId' time' value' f' w' h ih => exact ih
  | case2 f w result f' w' hne h => exact hne component timeId time value

end Machine

namespace Stepper

lemma start_ne_done (s : Stepper) : s.start.1 ≠ .done := by
  unfold start
  grind

lemma advance_ne_none {progress : Progress} (s : Stepper) (h : progress ≠ .done) :
    (s.advance progress).1 ≠ none := by
  cases progress with
  | running f => simp [advance]
  | failed e => simp [advance]
  | done => exact absurd rfl h

def isLast : Item → Bool
  | .ok e => !e.isEmitted
  | .error _ => true

lemma react_ended {result : Except MachineError Yield}
    (hne : ∀ component timeId time value, result ≠ .ok (.emitted component timeId time value))
    (s : Stepper) {f f' : Frame} (h : f'.state = f.state) :
    s.react f' result = ((s.react f result).1, .done, (s.react f result).2.2) ∧
      isLast (s.react f result).1 = true := by
  rcases result with e | y
  · exact ⟨rfl, rfl⟩
  · cases y with
    | emitted component timeId time value => exact absurd rfl (hne component timeId time value)
    | completed next => exact ⟨by simp only [react, h], rfl⟩
    | aborted => exact ⟨by simp only [react, h], rfl⟩
    | raised i =>
      refine ⟨rfl, ?_⟩
      simp only [react]
      split <;> rfl

end Stepper

namespace Stream

open Stepper

/-! ### Asking and draining -/

lemma next_eq_none {t : Stream} {s : Stepper} (h : (t.next s).1 = none) :
    (t.next s).2.1.finished = true ∧ (t.next s).2.2 = s := by
  revert h
  unfold next
  split
  · exact fun _ => ⟨‹_›, rfl⟩
  · split
    · exact fun _ => ⟨rfl, rfl⟩
    · exact fun h => absurd h (advance_ne_none _ (start_ne_done s))
    · rename_i hne hne'
      refine fun h => absurd h (advance_ne_none s fun hdone => ?_)
      cases hn : t.remaining with
      | zero => exact hne hdone hn
      | succ n => exact hne' n hdone hn

lemma next_finished {t : Stream} (h : t.finished = true) (s : Stepper) :
    t.next s = (none, t, s) := by
  rw [next, if_pos h]

lemma poll_succ (n : ℕ) (t : Stream) (s : Stepper) :
    poll (n + 1) t s = ((t.next s).1 :: (poll n (t.next s).2.1 (t.next s).2.2).1,
      (poll n (t.next s).2.1 (t.next s).2.2).2) :=
  rfl

lemma poll_finished {t : Stream} (h : t.finished = true) (s : Stepper) (n : ℕ) :
    poll n t s = (List.replicate n none, s) := by
  induction n with
  | zero => rfl
  | succ n ih => rw [poll_succ, next_finished h, ih, List.replicate_succ]

lemma drain_of_none {t : Stream} {s : Stepper} (h : (t.next s).1 = none) :
    t.drain s = ([], s) := by
  rw [drain]
  split
  · rename_i t' s' heq
    rw [← (next_eq_none h).2, heq]
  · rename_i heq
    rw [heq] at h
    cases h

lemma drain_of_some {t t' : Stream} {s s' : Stepper} {item : Item}
    (h : t.next s = (some item, t', s')) :
    t.drain s = (item :: (t'.drain s').1, (t'.drain s').2) := by
  rw [drain]
  split
  · rename_i heq
    rw [h] at heq
    cases heq
  · rename_i heq
    rw [h] at heq
    cases heq
    rfl

/-- However often it is asked, a stream tells the given items and then nothing. When all are told,
the stepper is the given one and stays so. -/
def Tells (t : Stream) (s : Stepper) (items : List Item) (s' : Stepper) : Prop :=
  ∀ n, (poll n t s).1 = (List.range n).map (items[·]?) ∧
    (items.length ≤ n → (poll n t s).2 = s')

/-- **A stream tells its items and then nothing.** -/
theorem tells_drain (t : Stream) (s : Stepper) : t.Tells s (t.drain s).1 (t.drain s).2 := by
  intro n
  induction n generalizing t s with
  | zero =>
    refine ⟨rfl, fun h => ?_⟩
    rcases hnext : t.next s with ⟨_ | item, t', s'⟩
    · rw [drain_of_none (by rw [hnext])]
      rfl
    · rw [drain_of_some hnext] at h
      cases h
  | succ n ih =>
    rw [poll_succ, List.range_succ_eq_map, List.map_cons, List.map_map]
    rcases hnext : t.next s with ⟨_ | item, t', s'⟩
    · have hnone : (t.next s).1 = none := by rw [hnext]
      obtain ⟨hfinished, hsame⟩ := next_eq_none hnone
      rw [hnext] at hfinished hsame
      obtain rfl : s' = s := hsame
      rw [drain_of_none hnone, poll_finished hfinished]
      simp [Function.comp_def, List.map_const']
    · obtain ⟨hitems, hlast⟩ := ih t' s'
      rw [drain_of_some hnext]
      refine ⟨?_, fun h => hlast (Nat.le_of_succ_le_succ h)⟩
      rw [hitems]
      simp [Function.comp_def]

/-! ### One step -/

abbrev ofStep (progress : Progress) : Stream := { remaining := 0, progress }

lemma drain_done (finished : Bool) (s : Stepper) :
    Stream.drain ⟨0, .done, finished⟩ s = ([], s) := by
  apply drain_of_none
  cases finished <;> rfl

lemma drain_failed (e : StepError) (s : Stepper) :
    (ofStep (.failed e)).drain s = ([.error e], s) := by
  have hnext : (ofStep (.failed e)).next s =
      (some (.error e), ⟨0, .done, isFatal (some (.error e))⟩, s) := rfl
  rw [drain_of_some hnext, drain_done]

lemma next_running {s : Stepper} {f f' : Frame} {w w' : Storage}
    {result : Except MachineError Yield}
    (h : Machine.resume s.code (host s.code s.functions) s.config.stackLimit f w =
      (result, f', w')) :
    let after := react { s with storage := w' } f' result
    (ofStep (.running f)).next { s with storage := w } =
      (some after.1, ⟨0, after.2.1, isFatal (some after.1)⟩, after.2.2) := by
  have hpull : (ofStep (.running f)).next { s with storage := w } =
      (ofStep (.running f)).pull { s with storage := w } := rfl
  rw [hpull, pull, advance]
  simp only [h]

/-- **The items of a step under way** are the events of its frame and what becomes of the end. -/
theorem drain_running (s : Stepper) (f : Frame) (w : Storage) :
    let u := Machine.drive s.code (host s.code s.functions) s.config.stackLimit f w
    let last := react { s with storage := u.storage } f u.result
    (ofStep (.running f)).drain { s with storage := w } =
      (u.events.map .ok ++ [last.1], last.2.2) := by
  fun_induction Machine.drive s.code (host s.code s.functions) s.config.stackLimit f w with
  | case1 f w component timeId time value f' w' h ih =>
    have hend := react_ended (Machine.drive_result_ne_emitted s.code s.config.stackLimit
      (host s.code s.functions) f' w') { s with storage := (Machine.drive s.code
        (host s.code s.functions) s.config.stackLimit f' w').storage } (Machine.state_of_resume h)
    have hfatal : ∀ e : Event, isFatal (some (.ok e)) = false := fun e => rfl
    dsimp only at ih hend
    rw [drain_of_some (next_running h), react, hfatal, ih, hend.1]
    rfl
  | case2 f w result f' w' hne h =>
    have hend := react_ended hne { s with storage := w' } (Machine.state_of_resume h)
    rw [drain_of_some (next_running h), hend.1, drain_done]
    rfl

end Stream

namespace Stepper

/-- **A step tells what is emitted and one last item.** -/
theorem drain_step (s : Stepper) : ∃ (events : List Event) (last : Item) (s' : Stepper),
    (∀ e ∈ events, e.isEmitted = true) ∧ isLast last = true ∧
      s.step.1.drain s.step.2 = (events.map .ok ++ [last], s') := by
  have hstep : s.step = (.ofStep s.start.1, s.start.2) := rfl
  rw [hstep]
  cases hstart : s.start.1 with
  | running f =>
    have hne := Machine.drive_result_ne_emitted s.start.2.code s.start.2.config.stackLimit
      (host s.start.2.code s.start.2.functions) f s.start.2.storage
    exact ⟨_, _, _, fun e he => Machine.isEmitted_of_mem_drive he, (react_ended hne _ rfl).2,
      Stream.drain_running s.start.2 f s.start.2.storage⟩
  | failed e => exact ⟨[], .error e, s.start.2, by simp, rfl, Stream.drain_failed e s.start.2⟩
  | done => exact absurd hstart (start_ne_done s)

/-- What comes of a run of the state at the given place, from its beginning. -/
def traceOf (s : Stepper) (i : ℕ) (sc : StateCode) : Trace :=
  Machine.play s.code sc (host s.code s.functions) s.config.stackLimit sc.ops.toList
    (sc.frame i).toRegisters s.storage

lemma traceOf_eq_drive {s : Stepper} {i : ℕ} {sc : StateCode} (hsc : s.code.state? i = some sc) :
    s.traceOf i sc = Machine.drive s.code (host s.code s.functions) s.config.stackLimit
      (sc.frame i) s.storage :=
  (Machine.drive_eq_play (sc.frame i) s.storage hsc).symm

/-- **A step runs the operations of the current state.** -/
theorem drain_step_of_current {s : Stepper} {i : ℕ} {sc : StateCode} (hover : s.terminated = false)
    (hi : s.current = some i) (hsc : s.code.state? i = some sc) :
    let u := s.traceOf i sc
    let last := react { s with storage := u.storage } (sc.frame i) u.result
    s.step.1.drain s.step.2 = (u.events.map .ok ++ [last.1], last.2.2) := by
  have hstart : s.start = (.running (sc.frame i), s) := by
    simp [start, hover, hi, Frame.start, hsc, StateCode.frame]
  have hstep : s.step = (.ofStep s.start.1, s.start.2) := rfl
  rw [hstep, hstart, traceOf_eq_drive hsc]
  exact Stream.drain_running s (sc.frame i) s.storage

/-- **A stepper whose run is over tells nothing else**, and stays as it is. -/
theorem drain_step_of_terminated {s : Stepper} (h : s.terminated = true) :
    s.step.2 = s ∧ s.step.1.drain s = ([.error .terminated], s) := by
  have hstep : s.step = (.ofStep (.failed .terminated), s) := by
    rw [step, start, if_pos h]
  rw [hstep]
  exact ⟨rfl, Stream.drain_failed .terminated s⟩

end Stepper

end TimeMarch
