import TimeMarch.Stepper

/-!
# Streams of Items

A caller pulls the items of one step or of several steps one at a time; nothing runs before it is
asked for, and a caller may stop at any point. A stream holds what is left to do, and pulling takes
the stepper along. A failure that cannot be recovered from is the last item of its stream.

A frame that emits a value has carried out at least one operation, so a step has no more items than
its state has operations and one. Counting them for the steps to come, too, shows that a stream
ends.
-/

namespace TimeMarch

namespace Machine

variable {σ : Type}

/-- A frame that has emitted a value was not at its end, and is further than before. -/
theorem resumeIn_emitted {c : Code} {s : StateCode} {host : Host σ} {limit : Nat} {f f' : Frame}
    {w w' : σ} {component timeId : Nat} {time : Float} {value : Value}
    (h : resumeIn c s host limit f w = (.ok (.emitted component timeId time value), f', w')) :
    f.ip < s.ops.size ∧ f.ip < f'.ip ∧ f'.state = f.state := by
  fun_induction resumeIn c s host limit f w with
  | case1 f w hip skip r w₁ hact ih =>
    obtain ⟨-, hlt, hsame⟩ := ih h
    refine ⟨hip, ?_, hsame⟩
    have : f.ip + 1 + skip < f'.ip := hlt
    omega
  | case2 f w hip y r w₁ hact =>
    simp only [Prod.mk.injEq] at h
    obtain ⟨-, rfl, -⟩ := h
    exact ⟨hip, Nat.lt_succ_self _, rfl⟩
  | case3 => simp at h
  | case4 => simp at h

end Machine

namespace Stepper

/-- A bound on the items that a step still has. -/
def left (c : Code) : Progress → Nat
  | .running f => ((c.state? f.state).elim 0 fun s => s.ops.size - f.ip) + 1
  | .failed _ => 1
  | .done => 0

/-- A bound on the items of any step. -/
def longest (c : Code) : Nat := total (fun s => s.ops.size) c.states.values + 1

theorem left_le_longest (c : Code) (p : Progress) : left c p ≤ longest c := by
  cases p with
  | running f =>
    apply Nat.add_le_add_right
    cases h : c.state? f.state with
    | none => exact Nat.zero_le _
    | some s =>
      have hs : s ∈ c.states.values := by
        obtain ⟨e, he, rfl⟩ := Option.map_eq_some_iff.1 h
        exact List.mem_map.2 ⟨e, Array.mem_toList_iff.2 (Array.mem_of_getElem? he), rfl⟩
      exact Nat.le_trans (Nat.sub_le _ _) (le_total (fun s => s.ops.size) hs)
  | failed e => exact Nat.le_add_left _ _
  | done => exact Nat.zero_le _

theorem react_code (s : Stepper) (f : Frame) (result : Except MachineError Yield) :
    (s.react f result).2.2.code = s.code := by
  unfold react
  split <;> rfl

theorem advance_code (s : Stepper) (p : Progress) : (s.advance p).2.2.code = s.code := by
  cases p with
  | running f => exact react_code _ _ _
  | failed e => rfl
  | done => rfl

theorem start_code (s : Stepper) : s.start.2.code = s.code := by
  unfold start
  grind

/-- What follows a yield is shorter than the run that yielded. -/
theorem left_react_lt {s : Stepper} {f f' : Frame} {result : Except MachineError Yield}
    (h : ∀ component timeId time value, result = .ok (.emitted component timeId time value) →
      left s.code (.running f') < left s.code (.running f)) :
    left s.code (s.react f' result).2.1 < left s.code (.running f) := by
  unfold react
  split
  · exact h _ _ _ _ rfl
  all_goals simp [left]

theorem left_resume_lt {c : Code} {host : Host Storage} {limit : Nat} {f f' : Frame}
    {w w' : Storage} {component timeId : Nat} {time : Float} {value : Value}
    (h : Machine.resume c host limit f w = (.ok (.emitted component timeId time value), f', w')) :
    left c (.running f') < left c (.running f) := by
  unfold Machine.resume at h
  split at h
  · rename_i code hcode
    obtain ⟨hlt, hmore, hsame⟩ := Machine.resumeIn_emitted h
    simp only [left, hsame, hcode, Option.elim_some]
    omega
  · simp at h

/-- Each item brings a step nearer to its end. -/
theorem left_advance_lt {s : Stepper} {p : Progress} {item : Item}
    (h : (s.advance p).1 = some item) : left s.code (s.advance p).2.1 < left s.code p := by
  cases p with
  | running f =>
    apply left_react_lt
    intro component timeId time value hresult
    exact left_resume_lt (Prod.ext hresult rfl)
  | failed e => simp [advance, left]
  | done => simp [advance] at h

end Stepper

/-- What is left to do: steps that have not begun, and the step that is under way. -/
structure Stream where
  remaining : Nat
  progress : Stepper.Progress := .done
  finished : Bool := false

namespace Stream

open Stepper

/-- Whether an item is the last one of its stream. -/
def isFatal : Option Item → Bool
  | some (.error e) => !e.isRecoverable
  | _ => false

/-- Carry on the step that is under way. -/
def pull (t : Stream) (s : Stepper) : Option Item × Stream × Stepper :=
  let (item, progress, s) := s.advance t.progress
  (item, { t with progress, finished := isFatal item }, s)

/-- The next item, if there is one. -/
def next (t : Stream) (s : Stepper) : Option Item × Stream × Stepper :=
  if t.finished then (none, t, s)
  else match t.progress, t.remaining with
    | .done, 0 => (none, { t with finished := true }, s)
    | .done, n + 1 =>
      let begun := s.start
      pull { remaining := n, progress := begun.1 } begun.2
    | _, _ => pull t s

/-- A bound on the items of a stream. -/
def bound (c : Code) (t : Stream) : Nat := t.remaining * longest c + left c t.progress

theorem pull_code (t : Stream) (s : Stepper) : (t.pull s).2.2.code = s.code :=
  advance_code s t.progress

theorem bound_pull_lt {t : Stream} {s : Stepper} {item : Item} (h : (t.pull s).1 = some item) :
    bound s.code (t.pull s).2.1 < bound s.code t :=
  Nat.add_lt_add_left (left_advance_lt h) _

theorem next_code (t : Stream) (s : Stepper) : (t.next s).2.2.code = s.code := by
  unfold next
  split
  · rfl
  split
  · rfl
  · exact (pull_code _ _).trans (start_code s)
  · exact pull_code t s

/-- The step that begins has at most as many items as were counted for it. -/
theorem bound_begin_le {t : Stream} {n : Nat} (s : Stepper) (hprogress : t.progress = .done)
    (hremaining : t.remaining = n + 1) :
    bound s.code { remaining := n, progress := s.start.1 } ≤ bound s.code t := by
  simp only [bound, hprogress, hremaining, Nat.succ_mul]
  exact Nat.le_add_right_of_le (Nat.add_le_add_left (left_le_longest s.code s.start.1) _)

/-- Each item brings a stream nearer to its end. -/
theorem bound_next_lt {t : Stream} {s : Stepper} {item : Item} (h : (t.next s).1 = some item) :
    bound s.code (t.next s).2.1 < bound s.code t := by
  revert h
  unfold next
  split
  · simp
  split
  · simp
  · rename_i n hprogress hremaining
    intro h
    have hlt := bound_pull_lt h
    rw [start_code] at hlt
    exact Nat.lt_of_lt_of_le hlt (bound_begin_le s hprogress hremaining)
  · exact bound_pull_lt

/-- All items that are left. -/
def drain (t : Stream) (s : Stepper) : List Item × Stepper :=
  match _h : t.next s with
  | (none, _, s') => ([], s')
  | (some item, t', s') =>
    have hcode : s'.code = s.code := (congrArg (fun r => r.2.2.code) _h).symm.trans (next_code t s)
    have hlt : bound s.code t' < bound s.code t := by
      have := bound_next_lt (congrArg Prod.fst _h)
      rwa [_h] at this
    let (items, s'') := drain t' s'
    (item :: items, s'')
termination_by bound s.code t
decreasing_by rwa [hcode]

/-- The results of asking `n` times. -/
def poll : (n : Nat) → Stream → Stepper → List (Option Item) × Stepper
  | 0, _, s => ([], s)
  | n + 1, t, s =>
    let (item, t, s) := t.next s
    let (items, s) := poll n t s
    (item :: items, s)

end Stream

namespace Stepper

/-- One step, which begins at once. -/
def step (s : Stepper) : Stream × Stepper :=
  let (progress, s) := s.start
  ({ remaining := 0, progress }, s)

/-- Up to so many steps, which begin one after the other as they are asked for. -/
def run (steps : Nat) : Stream := { remaining := steps }

end Stepper

end TimeMarch
