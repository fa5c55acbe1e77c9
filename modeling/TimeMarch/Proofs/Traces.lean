import Mathlib.Tactic.Common
import TimeMarch.Stepper.Stream

/-!
# Traces of Frames

A frame that is resumed until it no longer emits leaves a trace: the events on the way and the yield
or failure at the end. The machine finds its next operation by a place in an array. As jumps only go
forward, all that matters of the code is the list of operations that are left, and `play` runs such
a list; lists are what code is put together from.
-/

namespace TimeMarch

structure Trace where
  events : List Event
  result : Except MachineError Yield
  storage : Storage

def Trace.after (t : Trace) (events : List Event) : Trace := { t with events := events ++ t.events }

@[simp] lemma Trace.after_nil (t : Trace) : t.after [] = t := rfl

lemma Trace.after_append (t : Trace) (l l' : List Event) :
    t.after (l ++ l') = (t.after l').after l := by
  simp [after]

/-- Go on with the result of a computation, or end with its failure. -/
def Trace.given {α : Type} (x : Except MachineError α) (w : Storage) (next : α → Trace) : Trace :=
  match x with
  | .ok a => next a
  | .error e => ⟨[], .error e, w⟩

namespace Trace

@[simp] lemma given_ok {α : Type} (a : α) (w : Storage) (next : α → Trace) :
    given (.ok a) w next = next a :=
  rfl

@[simp] lemma given_pure {α : Type} (a : α) (w : Storage) (next : α → Trace) :
    given (pure a) w next = next a :=
  rfl

@[simp] lemma given_bind {α β : Type} (x : Except MachineError α) (f : α → Except MachineError β)
    (w : Storage) (next : β → Trace) :
    given (x >>= f) w next = given x w fun a => given (f a) w next := by
  cases x <;> rfl

lemma given_congr {α : Type} {x : Except MachineError α} {w : Storage} {next next' : α → Trace}
    (h : ∀ a, x = .ok a → next a = next' a) : given x w next = given x w next' := by
  cases x with
  | ok a => exact h a rfl
  | error e => rfl

end Trace

namespace Machine

/-- Resume a frame until it no longer emits. -/
def drive (c : Code) (host : Host Storage) (limit : ℕ) (f : Frame) (w : Storage) : Trace :=
  match _h : resume c host limit f w with
  | (.ok (.emitted component timeId time value), f', w') =>
    (drive c host limit f' w').after
      [.emitted (c.labels.name component) (c.labels.name timeId) time value]
  | (result, _, w') => ⟨[], result, w'⟩
termination_by Stepper.left c (.running f)
decreasing_by exact Stepper.left_resume_lt _h

def fit (limit depth : ℕ) (v : Value) : Except MachineError Value :=
  if limit ≤ depth then .error (.stackOverflow limit) else .ok v

/-- Carry out the operations of a list until one of them, or the end of the list, stops the run. -/
def play (c : Code) (s : StateCode) (host : Host Storage) (limit : ℕ) :
    List Op → Registers → Storage → Trace
  | [], r, w => ⟨[], .ok (.completed (r.transition.getD s.next)), w⟩
  | op :: rest, r, w =>
    match act c s host limit op r w with
    | (.go skip, r, w) => play c s host limit (rest.drop skip) r w
    | (.stop (.emitted component timeId time value), r, w) =>
      (play c s host limit rest r w).after
        [.emitted (c.labels.name component) (c.labels.name timeId) time value]
    | (.stop y, _, w) => ⟨[], .ok y, w⟩
    | (.fail e, _, w) => ⟨[], .error e, w⟩
termination_by ops => ops.length
decreasing_by all_goals simp; try omega

section

variable {c : Code} {s : StateCode} {host : Host Storage} {limit : ℕ}

lemma drive_of_emitted {f f' : Frame} {w w' : Storage} {component timeId : ℕ} {time : Float}
    {value : Value}
    (h : resume c host limit f w = (.ok (.emitted component timeId time value), f', w')) :
    drive c host limit f w = (drive c host limit f' w').after
      [.emitted (c.labels.name component) (c.labels.name timeId) time value] := by
  rw [drive]
  split
  · rename_i heq
    rw [h] at heq
    cases heq
    rfl
  · rename_i hne heq
    rw [h] at heq
    cases heq
    exact (hne _ _ _ _ rfl).elim

lemma drive_of_ended {f f' : Frame} {w w' : Storage} {result : Except MachineError Yield}
    (h : resume c host limit f w = (result, f', w'))
    (hne : ∀ component timeId time value, result ≠ .ok (.emitted component timeId time value)) :
    drive c host limit f w = ⟨[], result, w'⟩ := by
  rw [drive]
  split
  · rename_i heq
    rw [h] at heq
    cases heq
    exact absurd rfl (hne _ _ _ _)
  · rename_i heq
    rw [h] at heq
    cases heq
    rfl

lemma drive_congr {f f' : Frame} {w w' : Storage}
    (h : resume c host limit f w = resume c host limit f' w') :
    drive c host limit f w = drive c host limit f' w' := by
  rw [drive, drive, h]

/-- **A frame runs the operations that are left.** -/
theorem drive_eq_play (f : Frame) (w : Storage) (hs : c.state? f.state = some s) :
    drive c host limit f w = play c s host limit (s.ops.toList.drop f.ip) f.toRegisters w := by
  induction hk : s.ops.size - f.ip using Nat.strongRecOn generalizing f w with
  | _ k ih =>
    have hresume : ∀ f' w', f'.state = f.state →
        resume c host limit f' w' = resumeIn c s host limit f' w' := by
      intro f' w' hstate
      rw [resume, hstate, hs]
    by_cases hip : f.ip < s.ops.size
    · rw [List.drop_eq_getElem_cons (by simpa using hip), play, Array.getElem_toList]
      have hin := hresume f w rfl
      rw [resumeIn, dif_pos hip] at hin
      rcases hact : act c s host limit s.ops[f.ip] f.toRegisters w with ⟨turn, r, w₁⟩
      rw [hact] at hin
      cases turn with
      | go skip =>
        have hnext := hin.trans (hresume ⟨r, f.state, f.ip + 1 + skip⟩ w₁ rfl).symm
        have hplay := ih _ (by simp only; omega) ⟨r, f.state, f.ip + 1 + skip⟩ w₁ hs rfl
        rw [drive_congr hnext, hplay]
        simp only [List.drop_drop]
      | stop y =>
        cases y with
        | emitted component timeId time value =>
          have hplay := ih _ (by simp only; omega) ⟨r, f.state, f.ip + 1⟩ w₁ hs rfl
          rw [drive_of_emitted hin, hplay]
        | completed next => exact drive_of_ended hin (by simp)
        | aborted => exact drive_of_ended hin (by simp)
        | raised i => exact drive_of_ended hin (by simp)
      | fail e => exact drive_of_ended hin (by simp)
    · rw [List.drop_eq_nil_of_le (by simpa using hip), play]
      have hin := hresume f w rfl
      rw [resumeIn, dif_neg hip] at hin
      exact drive_of_ended hin (by simp)

/-! ### One operation -/

lemma play_go {op : Op} {rest : List Op} {r r' : Registers} {w w' : Storage} {skip : ℕ}
    (h : act c s host limit op r w = (.go skip, r', w')) :
    play c s host limit (op :: rest) r w = play c s host limit (rest.drop skip) r' w' := by
  rw [play, h]

lemma play_next {op : Op} {rest : List Op} {r r' : Registers} {w w' : Storage}
    (h : act c s host limit op r w = (.go 0, r', w')) :
    play c s host limit (op :: rest) r w = play c s host limit rest r' w' :=
  play_go h

lemma play_complete (r : Registers) (w : Storage) :
    play c s host limit [.complete] r w =
      ⟨[], .ok (.completed (r.transition.getD s.next)), w⟩ := by
  rw [play]
  rfl

lemma play_unary (op : UnaryOp) (rest : List Op) (r : Registers) (w : Storage) (v : Value)
    (stack : List Value) :
    play c s host limit (.unary op :: rest) { r with stack := v :: stack } w =
      Trace.given ((v.unary op).mapError .typeMismatch) w fun a =>
        play c s host limit rest { r with stack := a :: stack } w := by
  rw [play]
  simp only [act]
  cases v.unary op <;> rfl

lemma play_binary (op : BinaryOp) (rest : List Op) (r : Registers) (w : Storage) (a b : Value)
    (stack : List Value) :
    play c s host limit (.binary op :: rest) { r with stack := b :: a :: stack } w =
      Trace.given ((a.binary op b).mapError .typeMismatch) w fun v =>
        play c s host limit rest { r with stack := v :: stack } w := by
  rw [play]
  simp only [act]
  cases a.binary op b <;> rfl

lemma play_jumpIfFalse (offset : ℕ) (rest : List Op) (r : Registers) (w : Storage) (v : Value)
    (stack : List Value) :
    play c s host limit (.jumpIfFalse offset :: rest) { r with stack := v :: stack } w =
      Trace.given (v.truth.mapError .typeMismatch) w fun b =>
        play c s host limit (rest.drop (if b then 0 else offset)) { r with stack } w := by
  rw [play]
  simp only [act]
  cases v.truth <;> rfl

lemma play_jump (offset : ℕ) (rest : List Op) (r : Registers) (w : Storage) :
    play c s host limit (.jump offset :: rest) r w =
      play c s host limit (rest.drop offset) r w :=
  play_go rfl

lemma play_emit (component timeId : ℕ) (rest : List Op) (r : Registers) (w : Storage)
    (v time : Value) (stack : List Value) :
    play c s host limit (.emit component timeId :: rest) { r with stack := v :: time :: stack } w =
      Trace.given (time.toScalar.mapError .typeMismatch) w fun time =>
        (play c s host limit rest { r with stack } w).after
          [.emitted (c.labels.name component) (c.labels.name timeId) time v] := by
  rw [play]
  simp only [act]
  cases time.toScalar <;> rfl

lemma play_push {op : Op} {rest : List Op} {r r' : Registers} {w : Storage} {v : Value}
    (h : act c s host limit op r w = ((push limit r' v).1, (push limit r' v).2, w)) :
    play c s host limit (op :: rest) r w =
      Trace.given (fit limit r'.stack.length v) w fun v =>
        play c s host limit rest { r' with stack := v :: r'.stack } w := by
  unfold fit
  by_cases hfull : limit ≤ r'.stack.length
  · rw [push, if_pos hfull] at h
    rw [play, h, if_pos hfull]
    rfl
  · rw [push, if_neg hfull] at h
    rw [play_go h, if_neg hfull]
    rfl

lemma play_literal {i : ℕ} {v : Value} (hv : c.literals[i]? = some v) (rest : List Op)
    (r : Registers) (w : Storage) :
    play c s host limit (.literal i :: rest) r w =
      Trace.given (fit limit r.stack.length v) w fun v =>
        play c s host limit rest { r with stack := v :: r.stack } w :=
  play_push (by rw [act, hv])

lemma play_loadPersistent (i : ℕ) (rest : List Op) (r : Registers) (w : Storage) :
    play c s host limit (.loadPersistent i :: rest) r w =
      Trace.given ((host.load w i).elim (.error (.undefinedVariable (c.persistent.name i)))
        (fit limit r.stack.length)) w
        fun v => play c s host limit rest { r with stack := v :: r.stack } w := by
  cases hv : host.load w i with
  | none =>
    rw [play]
    simp only [act, hv]
    rfl
  | some v => exact play_push (by rw [act, hv])

lemma play_loadLocal {i : ℕ} {o : Option Value} {r : Registers} (ho : r.locals[i]? = some o)
    (rest : List Op) (w : Storage) :
    play c s host limit (.loadLocal i :: rest) r w =
      Trace.given (o.elim (.error (.undefinedVariable (s.locals.name i)))
        (fit limit r.stack.length)) w
        fun v => play c s host limit rest { r with stack := v :: r.stack } w := by
  cases o with
  | none =>
    rw [play]
    simp only [act, ho]
    rfl
  | some v => exact play_push (by rw [act, ho])

lemma popMany?_append {n : ℕ} {values : List Value} (hn : values.length = n) (stack : List Value) :
    popMany? n (values.reverse ++ stack) = some (values, stack) := by
  subst hn
  rw [popMany?, if_neg (by simp)]
  simp

lemma play_call {i arity : ℕ} {keywords : Option ℕ} {names : List String}
    (hnames : keywords.elim (some []) (fun k => c.keywordSets[k]?) = some names)
    {positional values : List Value} (hpositional : positional.length = arity)
    (hvalues : values.length = names.length) {w : Storage} {x : Except MachineError Value}
    (hcall : host.call w i positional (names.zip values) = (x, w)) (rest : List Op) (r : Registers)
    (stack : List Value) :
    play c s host limit (.call i arity keywords :: rest)
        { r with stack := values.reverse ++ (positional.reverse ++ stack) } w =
      Trace.given (x >>= fit limit stack.length) w
        fun v => play c s host limit rest { r with stack := v :: stack } w := by
  have hact : act c s host limit (.call i arity keywords)
      { r with stack := values.reverse ++ (positional.reverse ++ stack) } w =
      call host limit i arity names
        { r with stack := values.reverse ++ (positional.reverse ++ stack) } w := by
    cases keywords with
    | none =>
      obtain rfl : [] = names := Option.some.inj hnames
      rw [act]
    | some k =>
      rw [Option.elim_some] at hnames
      rw [act, hnames]
  rw [call] at hact
  simp only [popMany?_append hvalues, popMany?_append hpositional, hcall] at hact
  cases x with
  | error e =>
    rw [play, hact]
    rfl
  | ok v => exact play_push hact

end

end Machine

end TimeMarch
