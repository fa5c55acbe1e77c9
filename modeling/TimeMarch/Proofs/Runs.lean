import TimeMarch.Proofs.Retries

/-!
# Runs Are Steps in a Row

A run begins its steps by itself, one when the one before it has told its last item. To its caller
this is the same as asking for one step after the other and pulling each to its end, as long as no
item is fatal and as often as was agreed. A run can therefore be taken up again where an earlier one
has ended.
-/

namespace TimeMarch

namespace Stepper

def stepAll (s : Stepper) : List Item × Stepper := s.step.1.drain s.step.2

def fatal (items : List Item) : Bool := items.any fun item => Stream.isFatal (some item)

/-- Up to so many steps, each pulled to its end before the next one begins. Behind a fatal item
there is no further step. -/
def stepsUpTo : ℕ → Stepper → List Item × Stepper
  | 0, s => ([], s)
  | n + 1, s =>
    let (items, s') := s.stepAll
    if fatal items then (items, s')
    else
      let (later, s'') := stepsUpTo n s'
      (items ++ later, s'')

lemma fatal_eq_false_iff {items : List Item} :
    fatal items = false ↔ ∀ e, .error e ∈ items → e.isRecoverable = true := by
  rw [fatal, List.any_eq_false]
  constructor
  · intro h e he
    simpa [Stream.isFatal] using h _ he
  · rintro h (e | e) hitem
    · simp [Stream.isFatal, h e hitem]
    · simp [Stream.isFatal]

lemma fatal_append (l l' : List Item) : fatal (l ++ l') = (fatal l || fatal l') :=
  List.any_append

end Stepper

namespace Stream

open Stepper

/-! ### A stream with a step under way -/

lemma drain_finished (n : ℕ) (progress : Progress) (s : Stepper) :
    Stream.drain ⟨n, progress, true⟩ s = ([], s) :=
  drain_of_none (by rw [next_finished rfl])

lemma next_of_ne_done {progress : Progress} (h : progress ≠ .done) (n : ℕ) (s : Stepper) :
    Stream.next ⟨n, progress, false⟩ s =
      ((s.advance progress).1, ⟨n, (s.advance progress).2.1, isFatal (s.advance progress).1⟩,
        (s.advance progress).2.2) := by
  cases progress with
  | running f => rfl
  | failed e => rfl
  | done => exact absurd rfl h

/-- **A step in a run is a step.** The stream tells the items of the step under way, and what is
left of the run if none of them is fatal. -/
theorem drain_of_ne_done {progress : Progress} (h : progress ≠ .done) (n : ℕ) (s : Stepper) :
    Stream.drain ⟨n, progress, false⟩ s =
      let first := (ofStep progress).drain s
      let later := (Stepper.run n).drain first.2
      if fatal first.1 then first else (first.1 ++ later.1, later.2) := by
  -- each item brings the step nearer to its end
  induction hleft : left s.code progress using Nat.strongRecOn generalizing progress s with
  | _ k ih =>
    rcases hadvance : s.advance progress with ⟨_ | item, progress', s'⟩
    · exact absurd (congrArg Prod.fst hadvance) (advance_ne_none s h)
    have hnext : ∀ m, Stream.next ⟨m, progress, false⟩ s =
        (some item, ⟨m, progress', isFatal (some item)⟩, s') := by
      intro m
      rw [next_of_ne_done h, hadvance]
    dsimp only
    rw [drain_of_some (hnext n), drain_of_some (hnext 0)]
    cases hfatal : isFatal (some item) with
    | true => simp [drain_finished, fatal, hfatal]
    | false =>
      have hcons : ∀ l, fatal (item :: l) = fatal l := fun l => by
        rw [fatal, List.any_cons, hfatal, Bool.false_or, fatal]
      rw [hcons]
      by_cases hdone : progress' = .done
      · subst hdone
        rw [drain_done]
        rfl
      · have hcode : s'.code = s.code := by simpa [hadvance] using advance_code s progress
        have hlt : left s'.code progress' < k := by
          have := left_advance_lt (congrArg Prod.fst hadvance)
          rw [hadvance] at this
          rwa [hcode, ← hleft]
        rw [ih _ hlt hdone s' rfl]
        dsimp only
        split <;> rfl

/-! ### A whole run -/

lemma drain_run_zero (s : Stepper) : (Stepper.run 0).drain s = ([], s) := drain_done false s

lemma drain_run_succ (n : ℕ) (s : Stepper) :
    (Stepper.run (n + 1)).drain s =
      let later := (Stepper.run n).drain s.stepAll.2
      if fatal s.stepAll.1 then s.stepAll else (s.stepAll.1 ++ later.1, later.2) := by
  have hstep : s.stepAll = (ofStep s.start.1).drain s.start.2 := rfl
  rw [hstep, ← drain_of_ne_done (start_ne_done s)]
  -- the first item is that of the step which begins
  have hnext : (Stepper.run (n + 1)).next s = Stream.next ⟨n, s.start.1, false⟩ s.start.2 := by
    rw [next_of_ne_done (start_ne_done s)]
    rfl
  rcases hitem : Stream.next ⟨n, s.start.1, false⟩ s.start.2 with ⟨_ | item, t, s'⟩
  · rw [next_of_ne_done (start_ne_done s)] at hitem
    exact absurd (congrArg Prod.fst hitem) (advance_ne_none _ (start_ne_done s))
  · rw [drain_of_some (hnext.trans hitem), drain_of_some hitem]

/-- **A run tells the items of its steps in a row.** -/
theorem drain_run (n : ℕ) (s : Stepper) : (Stepper.run n).drain s = s.stepsUpTo n := by
  induction n generalizing s with
  | zero => exact drain_run_zero s
  | succ n ih =>
    rw [drain_run_succ, ih]
    rfl

end Stream

namespace Stepper

/-! ### Steps in a row -/

lemma stepsUpTo_succ (n : ℕ) (s : Stepper) :
    s.stepsUpTo (n + 1) = if fatal s.stepAll.1 then s.stepAll
      else (s.stepAll.1 ++ (s.stepAll.2.stepsUpTo n).1, (s.stepAll.2.stepsUpTo n).2) :=
  rfl

lemma stepsUpTo_add {m : ℕ} {s : Stepper} (h : fatal (s.stepsUpTo m).1 = false) (n : ℕ) :
    s.stepsUpTo (m + n) = ((s.stepsUpTo m).1 ++ ((s.stepsUpTo m).2.stepsUpTo n).1,
      ((s.stepsUpTo m).2.stepsUpTo n).2) := by
  induction m generalizing s with
  | zero =>
    rw [Nat.zero_add]
    rfl
  | succ m ih =>
    rw [stepsUpTo_succ] at h ⊢
    rw [Nat.succ_add, stepsUpTo_succ]
    cases hfirst : fatal s.stepAll.1 with
    | true =>
      rw [hfirst, if_pos rfl] at h
      exact absurd hfirst (by simp [h])
    | false =>
      rw [hfirst, if_neg Bool.false_ne_true, fatal_append, hfirst, Bool.false_or] at h
      simp [ih h]

lemma fatal_stepAll_dropLast (s : Stepper) : fatal s.stepAll.1.dropLast = false := by
  obtain ⟨events, last, s', -, -, hdrain⟩ := drain_step s
  rw [stepAll, hdrain, List.dropLast_concat, fatal_eq_false_iff]
  intro e he
  simp at he

lemma fatal_stepsUpTo_dropLast (n : ℕ) (s : Stepper) :
    fatal (s.stepsUpTo n).1.dropLast = false := by
  induction n generalizing s with
  | zero => rfl
  | succ n ih =>
    rw [stepsUpTo_succ]
    split
    · exact fatal_stepAll_dropLast s
    · rename_i hfirst
      rw [Bool.not_eq_true] at hfirst
      by_cases hnone : (s.stepAll.2.stepsUpTo n).1 = []
      · rw [hnone, List.append_nil]
        exact fatal_stepAll_dropLast s
      · rw [List.dropLast_append_of_ne_nil hnone, fatal_append, hfirst, ih]
        rfl

end Stepper

open Stepper

/-- **A run is repeated single steps.** In whatever condition a stepper is, a run tells what single
steps tell one after the other, each pulled to its end, and leaves the stepper as they do. An error
that cannot be recovered from is the last item. Where there is none, a second run goes on as the
first one would have done. -/
theorem run_eq_single_steps (s : Stepper) :
    (∀ n, (Stepper.run n).drain s = s.stepsUpTo n) ∧
    (∀ n earlier e later, ((Stepper.run n).drain s).1 = earlier ++ .error e :: later →
      e.isRecoverable = false → later = []) ∧
    ∀ m n, (∀ e, .error e ∈ ((Stepper.run m).drain s).1 → e.isRecoverable = true) →
      (Stepper.run (m + n)).drain s =
        let first := (Stepper.run m).drain s
        let second := (Stepper.run n).drain first.2
        (first.1 ++ second.1, second.2) := by
  refine ⟨fun n => Stream.drain_run n s, fun n earlier e later hitems hfatal => ?_,
    fun m n hgood => ?_⟩
  · rw [Stream.drain_run] at hitems
    have hlast := fatal_stepsUpTo_dropLast n s
    rw [hitems, fatal_eq_false_iff] at hlast
    by_contra hne
    rw [List.dropLast_append_of_ne_nil (List.cons_ne_nil _ _),
      List.dropLast_cons_of_ne_nil hne] at hlast
    have := hlast e (by simp)
    simp [hfatal] at this
  · rw [← fatal_eq_false_iff, Stream.drain_run] at hgood
    dsimp only
    rw [Stream.drain_run, Stream.drain_run, Stream.drain_run]
    exact stepsUpTo_add hgood n

def failThenRaise : InstructionSet :=
  (InstructionSet.empty.addAll [
    ⟨"count", ∅, .assign "<p>n" (.binary .add (.var "<p>n") (.literal (.scalar 1)))⟩,
    ⟨"judge", .ofList ["count"], .branch (.binary .lt (.var "<p>n") (.literal (.scalar 2)))
      (.ofList ["fail"]) (.ofList ["stop"])⟩,
    ⟨"fail", ∅, .abort⟩,
    ⟨"stop", ∅, .raise "Exhausted" "too many tries"⟩]).toOption.getD .empty

theorem run_eq_single_steps_failThenRaise : ∃ p c s,
    Program.create failThenRaise [⟨"s", ["judge"], "s"⟩] "s" = .ok p ∧
    Code.ofProgram defaultReserved p = .ok c ∧ Stepper.Reached c (.ofList []) {} s ∧
    errors (s.stepsUpTo 3).1 = [.stepFailed "s", .raised "Exhausted" "too many tries"] ∧
    (Stepper.run 3).drain s = s.stepsUpTo 3 ∧
    (∀ e, .error e ∈ ((Stepper.run 1).drain s).1 → e.isRecoverable = true) ∧
    (Stepper.run (1 + 2)).drain s =
      let first := (Stepper.run 1).drain s
      let second := (Stepper.run 2).drain first.2
      (first.1 ++ second.1, second.2) := by
  have hsome : ((Program.create failThenRaise [⟨"s", ["judge"], "s"⟩] "s").toOption.bind fun p =>
      (Code.ofProgram defaultReserved p).toOption.bind fun c =>
        (Stepper.create c (.ofList []) {}).toOption.bind fun s₀ =>
          let s := (s₀.setUp 0 1 [("<p>n", .scalar 0)]).2
          if errors (s.stepsUpTo 3).1 = [.stepFailed "s", .raised "Exhausted" "too many tries"] ∧
            fatal ((Stepper.run 1).drain s).1 = false
          then some () else none) = some () := by
    decide +kernel
  obtain ⟨p, hp, hsome⟩ := Option.bind_eq_some_iff.1 hsome
  obtain ⟨c, hc, hsome⟩ := Option.bind_eq_some_iff.1 hsome
  obtain ⟨s₀, hs₀, hsome⟩ := Option.bind_eq_some_iff.1 hsome
  rw [toOption_eq_some] at hp hc hs₀
  obtain ⟨herrors, hgood⟩ := (Option.ite_none_right_eq_some.1 hsome).1
  rw [fatal_eq_false_iff] at hgood
  obtain ⟨hsteps, -, hadd⟩ := run_eq_single_steps (s₀.setUp 0 1 [("<p>n", .scalar 0)]).2
  exact ⟨p, c, _, hp, hc, (Stepper.Reached.create hs₀).setUp 0 1 [("<p>n", .scalar 0)], herrors,
    hsteps 3, hgood, hadd 1 2 hgood⟩

end TimeMarch
