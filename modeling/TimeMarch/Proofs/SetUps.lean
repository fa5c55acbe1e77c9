import TimeMarch.Proofs.Retries
import TimeMarch.Proofs.SymbolTables

/-!
# What a Refused Set-Up Leaves Behind

A set-up empties the storage before it looks at the context, and it puts in the values one by one
until it meets a key that it refuses. So a stepper whose set-up is refused stays in its current
state, while its variables are those of a new start that got only so far. The next set-up that is
accepted makes up for it.
-/

namespace TimeMarch

/-! ### The slots of the time and the step size -/

lemma Lowering.le_of_foldlM {p : Program} {reserved : Std.TreeSet String} {states : List State}
    {b b' : Roster StateCode × Tables} (hl : ∀ v ∈ b.2.literals, v ∈ p.literals)
    (h : states.foldlM (fun (codes, tables) s => do
      let (code, tables) ← Lowering.state p reserved s tables
      return (Roster.insert codes s.name code, tables)) b = .ok b') : b.2.Le b'.2 := by
  refine (foldlM_induction (P := fun _ (d : Roster StateCode × Tables) =>
    b.2.Le d.2 ∧ ∀ v ∈ d.2.literals, v ∈ p.literals) ?_ ⟨.refl _, hl⟩ h).1
  rintro done d st d' ⟨hle, hd⟩ hstep
  obtain ⟨⟨s, t⟩, hs, hpure⟩ := bind_eq_ok.1 hstep
  cases hpure
  obtain ⟨hle', hd', -⟩ := Lowering.state_eq_ok hs hd
  exact ⟨hle.trans hle', hd'⟩

namespace Code

/-- **Time and step size have their fixed slots** in the code of every program. -/
theorem slot?_time_stepSize {p : Program} {reserved : List String} {c : Code}
    (h : Code.ofProgram reserved p = .ok c) :
    c.persistent.slot? timeName = some timeSlot ∧
      c.persistent.slot? stepSizeName = some stepSizeSlot := by
  obtain ⟨words, -, h⟩ := bind_eq_ok.1 h
  obtain ⟨⟨_, t₁⟩, ht₁, h⟩ := bind_eq_ok.1 h
  obtain ⟨⟨_, t₂⟩, ht₂, h⟩ := bind_eq_ok.1 h
  obtain ⟨⟨states, tables⟩, hfold, h⟩ := bind_eq_ok.1 h
  obtain ⟨initial, -, h⟩ := bind_eq_ok.1 h
  cases h
  have hle : t₂.Le tables.persistent := (Lowering.le_of_foldlM (by simp) hfold).persistent
  rw [SymbolTable.intern_eq_ok_iff] at ht₁ ht₂
  have ht₂ : t₂ = SymbolTable.requestAll words [timeName, stepSizeName] {} := by
    simp [SymbolTable.requestAll, ht₁, ht₂]
  have hkeys : t₂.symbols.keys = [timeName, stepSizeName] := by
    rw [ht₂, SymbolTable.keys_requestAll]
    decide
  exact ⟨hle _ _ (SymbolTable.slot?_eq_some_iff.2 (by rw [hkeys]; rfl)),
    hle _ _ (SymbolTable.slot?_eq_some_iff.2 (by rw [hkeys]; rfl))⟩

lemma contents_set {c : Code} {y : String} {slot : ℕ} (h : c.persistent.slot? y = some slot)
    (w : Storage) (v : Value) (x : String) :
    c.contents (w.set slot v) x = ([(y, v)].lookup x).or (c.contents w x) := by
  have hset := c.contents_setAll (l := [(slot, v)])
    (fun e he => (List.mem_singleton.1 he) ▸ SymbolTable.slot?_lt h) w x
  rwa [List.map_singleton, SymbolTable.name_of_slot? h, List.reverse_singleton] at hset

lemma contents_congr (c : Code) {w w' : Storage} (h : ∀ slot, w'.get? slot = w.get? slot)
    (x : String) : c.contents w' x = c.contents w x :=
  congrArg (c.persistent.slot? x).bind (funext h)

@[simp] lemma contents_clear (c : Code) (w : Storage) (x : String) :
    c.contents w.clear x = none := by
  cases h : c.persistent.slot? x with
  | none => rw [contents, h, Option.bind_none]
  | some slot => rw [contents, h, Option.bind_some, Storage.get?_clear]

def knows (c : Code) (key : String) : Bool :=
  (c.persistent.slot? (Stepper.contextName key)).isSome

def knownPart (c : Code) (context : List (String × Value)) : List (String × Value) :=
  context.takeWhile fun entry => c.knows entry.1

end Code

namespace Stepper

/-! ### How far the storage is filled -/

def named (context : List (String × Value)) : List (String × Value) :=
  context.map fun e => (contextName e.1, e.2)

def given (time stepSize : Float) (context : List (String × Value)) : List (String × Value) :=
  [(timeName, .scalar time), (stepSizeName, .scalar stepSize)] ++ named context

variable {c : Code} {strict : Bool} {context : List (String × Value)} {e : StepperError}

/-- **Filling stops at the first unknown key**, and all that stands before it was put in. -/
theorem fill_eq_error {w w' : Storage} (h : fill c strict context w = (.error e, w')) :
    strict = true ∧
      (∃ key v, context.find? (fun entry => !c.knows entry.1) = some (key, v) ∧
        e = .unknownContextVariable (contextName key)) ∧
      ∀ x, c.contents w' x =
        ((named (c.knownPart context)).reverse.lookup x).or (c.contents w x) := by
  induction context generalizing w with
  | nil => cases h
  | cons entry rest ih =>
    obtain ⟨key, v⟩ := entry
    rw [fill] at h
    cases hslot : c.persistent.slot? (contextName key) with
    | some slot =>
      have hknows : c.knows key = true := by rw [Code.knows, hslot, Option.isSome_some]
      have hpart : c.knownPart ((key, v) :: rest) = (key, v) :: c.knownPart rest :=
        List.takeWhile_cons_of_pos hknows
      rw [hslot] at h
      obtain ⟨hstrict, hfirst, hcontents⟩ := ih h
      refine ⟨hstrict, ?_, fun x => ?_⟩
      · rwa [List.find?_cons_of_neg (by simp [hknows])]
      · -- a later value under the same name counts
        rw [hcontents, Code.contents_set hslot, hpart, named, named, List.map_cons,
          List.reverse_cons, List.lookup_append, Option.or_assoc]
    | none =>
      have hknows : ¬c.knows key = true := by simp [Code.knows, hslot]
      have hpart : c.knownPart ((key, v) :: rest) = [] := List.takeWhile_cons_of_neg hknows
      rw [hslot] at h
      dsimp only at h
      split at h
      · cases h
        refine ⟨‹_›, ⟨key, v, List.find?_cons_of_pos (by simpa using hknows), rfl⟩, fun x => ?_⟩
        rw [hpart]
        rfl
      · exact absurd (ih h).1 ‹_›

variable (c strict context) in
lemma fill_congr {w w' : Storage} (h : ∀ slot, w'.get? slot = w.get? slot) :
    (fill c strict context w').1 = (fill c strict context w).1 ∧
      ∀ slot, (fill c strict context w').2.get? slot = (fill c strict context w).2.get? slot := by
  induction context generalizing w w' with
  | nil => exact ⟨rfl, h⟩
  | cons entry rest ih =>
    rw [fill, fill]
    split
    · exact ih fun slot => by rw [Storage.get?_set, Storage.get?_set, h]
    · split
      · exact ⟨rfl, h⟩
      · exact ih h

variable {s s' : Stepper} {time stepSize : Float}

/-- The storage with which a set-up comes to the context. -/
def blank (s : Stepper) (time stepSize : Float) : Storage :=
  (s.storage.clear.set Code.timeSlot (.scalar time)).set Code.stepSizeSlot (.scalar stepSize)

lemma setUp_eq (s : Stepper) (time stepSize : Float) (context : List (String × Value)) :
    s.setUp time stepSize context =
      let filled := fill s.code s.config.strictContext context (s.blank time stepSize)
      (filled.1, match filled.1 with
        | .error _ => { s with storage := filled.2 }
        | .ok () =>
          { s with storage := filled.2, current := some s.code.initial, terminated := false }) := by
  unfold setUp
  dsimp only [blank]
  split <;> simp [*]

lemma contents_blank (htime : s.code.persistent.slot? timeName = some Code.timeSlot)
    (hstepSize : s.code.persistent.slot? stepSizeName = some Code.stepSizeSlot) (x : String) :
    s.code.contents (s.blank time stepSize) x =
      [(timeName, .scalar time), (stepSizeName, .scalar stepSize)].reverse.lookup x := by
  rw [blank, Code.contents_set hstepSize, Code.contents_set htime, Code.contents_clear,
    Option.or_none, ← List.lookup_append]
  rfl

/-- **What a refused set-up leaves alone, and what it makes of the variables.** -/
theorem setUp_eq_error (htime : s.code.persistent.slot? timeName = some Code.timeSlot)
    (hstepSize : s.code.persistent.slot? stepSizeName = some Code.stepSizeSlot)
    (h : s.setUp time stepSize context = (.error e, s')) :
    s.config.strictContext = true ∧
      (∃ key v, context.find? (fun entry => !s.code.knows entry.1) = some (key, v) ∧
        e = .unknownContextVariable (contextName key)) ∧
      s' = { s with storage := s'.storage } ∧
      ∀ x, s.code.contents s'.storage x =
        (given time stepSize (s.code.knownPart context)).reverse.lookup x := by
  rw [setUp_eq] at h
  rcases hfill : fill s.code s.config.strictContext context (s.blank time stepSize) with ⟨result, w⟩
  rw [hfill] at h
  cases h
  obtain ⟨hstrict, hfirst, hcontents⟩ := fill_eq_error hfill
  refine ⟨hstrict, hfirst, rfl, fun x => ?_⟩
  rw [hcontents, contents_blank htime hstepSize, given, List.reverse_append, List.lookup_append]

/-- **A set-up does not see what the storage held before.** -/
theorem setUp_congr (s : Stepper) (w : Storage) (time stepSize : Float)
    (context : List (String × Value)) :
    let a := { s with storage := w }.setUp time stepSize context
    let b := s.setUp time stepSize context
    a.1 = b.1 ∧ a.2 = { b.2 with storage := a.2.storage } ∧
      ∀ slot, a.2.storage.get? slot = b.2.storage.get? slot := by
  have hblank : ∀ slot, ({ s with storage := w }.blank time stepSize).get? slot =
      (s.blank time stepSize).get? slot := by
    intro slot
    simp only [blank, Storage.get?_set, Storage.get?_clear]
  obtain ⟨hresult, hslots⟩ := fill_congr s.code s.config.strictContext context hblank
  intro a b
  simp only [a, b, setUp_eq, hresult, true_and]
  cases (fill s.code s.config.strictContext context (s.blank time stepSize)).1 with
  | error e => exact ⟨rfl, hslots⟩
  | ok u => exact ⟨rfl, hslots⟩

end Stepper

/-- **What a refused set-up leaves behind.** Take a stepper for the code of an accepted program,
whatever was done with it before, and a set-up that is refused.

The context is strict, and the error names the first unknown key. The current state, and whether the
run has ended, stay as they were. Each persistent variable has the last value that the set-up gave
it before it came to that key, and if there is none, no value, whatever it had before. A later
set-up does not see any of this. -/
theorem refused_setUp_keeps_all_but_variables {instructions : InstructionSet}
    {states : List State} {initial : String} {p : Program}
    (hp : Program.create instructions states initial = .ok p)
    {reserved : List String} {c : Code} (hc : Code.ofProgram reserved p = .ok c)
    {t : FunctionTable} {config : StepperConfig} {s : Stepper}
    (hs : Stepper.Reached c t config s) {time stepSize : Float}
    {context : List (String × Value)} {e : StepperError} {s' : Stepper}
    (h : s.setUp time stepSize context = (.error e, s')) :
    s.config.strictContext = true ∧
    (∃ key v, context.find? (fun entry => !c.knows entry.1) = some (key, v) ∧
      e = .unknownContextVariable (Stepper.contextName key)) ∧
    s' = { s with storage := s'.storage } ∧
    (∀ x, c.contents s'.storage x =
      (Stepper.given time stepSize (c.knownPart context)).reverse.lookup x) ∧
    ∀ time' stepSize' context',
      let again := s'.setUp time' stepSize' context'
      let instead := s.setUp time' stepSize' context'
      again.1 = instead.1 ∧ again.2 = { instead.2 with storage := again.2.storage } ∧
        ∀ x, c.contents again.2.storage x = c.contents instead.2.storage x := by
  have hacc := Program.accepted_of_create hp
  obtain ⟨rfl, -, -⟩ := hs.safe ((Code.of_ofProgram hacc.name_eq hc).sound hacc)
  obtain ⟨htime, hstepSize⟩ := Code.slot?_time_stepSize hc
  obtain ⟨hstrict, hfirst, hsame, hcontents⟩ := Stepper.setUp_eq_error htime hstepSize h
  refine ⟨hstrict, hfirst, hsame, hcontents, fun time' stepSize' context' => ?_⟩
  rw [hsame]
  obtain ⟨hresult, hstepper, hslots⟩ :=
    s.setUp_congr s'.storage time' stepSize' context'
  exact ⟨hresult, hstepper, s.code.contents_congr hslots⟩

def countOnce : InstructionSet :=
  (InstructionSet.empty.addAll [
    ⟨"count", ∅, .assign "<state>y" (.binary .add (.var "<state>y") (.var "<p>k"))⟩]
  ).toOption.getD .empty

def countThenRest : List State := [⟨"first", ["count"], "rest"⟩, ⟨"rest", [], "rest"⟩]

lemma exists_counted {P : Code → Stepper → Prop} [∀ c s, Decidable (P c s)]
    (h : ((Program.create countOnce countThenRest "first").toOption.bind fun p =>
      (Code.ofProgram defaultReserved p).toOption.bind fun c =>
        (Stepper.create c (.ofList []) { strictContext := true }).toOption.bind fun s₀ =>
          let s := (s₀.setUp 0 1 [("y", .scalar 5), ("<p>k", .scalar 1)]).2
          if P c (Stream.poll 1 s.step.1 s.step.2).2 then some () else none) = some ()) :
    ∃ p c s, Program.create countOnce countThenRest "first" = .ok p ∧
      Code.ofProgram defaultReserved p = .ok c ∧
      Stepper.Reached c (.ofList []) { strictContext := true } s ∧ P c s := by
  obtain ⟨p, hp, h⟩ := Option.bind_eq_some_iff.1 h
  obtain ⟨c, hc, h⟩ := Option.bind_eq_some_iff.1 h
  obtain ⟨s₀, hs₀, h⟩ := Option.bind_eq_some_iff.1 h
  rw [toOption_eq_some] at hp hc hs₀
  exact ⟨p, c, _, hp, hc, ((Stepper.Reached.create hs₀).setUp 0 1 _).step 1,
    (Option.ite_none_right_eq_some.1 h).1⟩

theorem refused_setUp_keeps_all_countOnce : ∃ p c s s',
    Program.create countOnce countThenRest "first" = .ok p ∧
    Code.ofProgram defaultReserved p = .ok c ∧
    Stepper.Reached c (.ofList []) { strictContext := true } s ∧
    s.setUp 7 2 [("y", .scalar 8), ("z", .scalar 1), ("<p>k", .scalar 3)] =
      (.error (.unknownContextVariable "<state>z"), s') ∧
    s.currentState? = some "rest" ∧ s' = { s with storage := s'.storage } ∧
    ∀ x, c.contents s'.storage x =
      [("<state>y", .scalar 8), ("<dt>", .scalar 2), ("<t>", .scalar 7)].lookup x := by
  obtain ⟨p, c, s, hp, hc, hs, hrefused, hrest, hy, hz⟩ := exists_counted (P := fun c s =>
    (s.setUp 7 2 [("y", .scalar 8), ("z", .scalar 1), ("<p>k", .scalar 3)]).1 =
      .error (.unknownContextVariable "<state>z") ∧
    s.currentState? = some "rest" ∧ c.knows "y" = true ∧ c.knows "z" = false) (by decide +kernel)
  have hsetUp : s.setUp 7 2 [("y", .scalar 8), ("z", .scalar 1), ("<p>k", .scalar 3)] = (_, _) :=
    Prod.ext hrefused rfl
  obtain ⟨-, -, hsame, hcontents, -⟩ := refused_setUp_keeps_all_but_variables hp hc hs hsetUp
  have hpart : c.knownPart [("y", .scalar 8), ("z", .scalar 1), ("<p>k", .scalar 3)] =
      [("y", .scalar 8)] := by
    simp [Code.knownPart, hy, hz]
  rw [hpart] at hcontents
  exact ⟨p, c, s, _, hp, hc, hs, hsetUp, hrest, hsame, hcontents⟩

/-- A refused set-up is not undone: the count is lost, and the time is that of a new start. -/
theorem refused_setUp_loses_count : ∃ p c s,
    Program.create countOnce countThenRest "first" = .ok p ∧
    Code.ofProgram defaultReserved p = .ok c ∧
    Stepper.Reached c (.ofList []) { strictContext := true } s ∧
    (s.setUp 7 2 [("z", .scalar 1)]).1 = .error (.unknownContextVariable "<state>z") ∧
    (s.valueOf? "y").map Value.text = some "6" ∧
    ((s.setUp 7 2 [("z", .scalar 1)]).2.valueOf? "y").map Value.text = none ∧
    (s.valueOf? "<t>").map Value.text = some "0" ∧
    ((s.setUp 7 2 [("z", .scalar 1)]).2.valueOf? "<t>").map Value.text = some "7" :=
  exists_counted (by decide +kernel)

end TimeMarch
