import TimeMarch.Proofs.Footprints
import TimeMarch.Proofs.Sessions
import TimeMarch.Proofs.SetUps

/-!
# A New Start

A stepper that is set up begins anew: nothing of what was done with it before is left. Whatever the
caller asks of a stepper, its code, its functions and its configuration stay the same, and its
storage has one slot for each persistent variable. A set-up replaces all the rest.
-/

namespace TimeMarch

/-! ### The size of storage -/

namespace Storage

lemma size_set {w : Storage} {slot : ℕ} (h : slot < w.slots.size) (v : Value) :
    (w.set slot v).slots.size = w.slots.size := by
  rw [set, if_pos h, Array.size_setIfInBounds]

lemma ChangedIn.size_eq {n : ℕ} {w w' : Storage} (h : w.ChangedIn (· < n) w')
    (hw : w.slots.size = n) : w'.slots.size = n := by
  obtain ⟨l, rfl, hl⟩ := h
  induction l generalizing w with
  | nil => exact hw
  | cons e l ih =>
    rw [List.forall_mem_cons] at hl
    have hset : (w.set e.1 e.2).slots.size = w.slots.size := size_set (hw ▸ hl.1) e.2
    exact ih (hset.trans hw) hl.2

lemma changedIn_set {n slot : ℕ} (h : slot < n) (w : Storage) (v : Value) :
    w.ChangedIn (· < n) (w.set slot v) :=
  ⟨[(slot, v)], rfl, by simpa using h⟩

lemma clear_congr {w w' : Storage} (h : w'.slots.size = w.slots.size) : w'.clear = w.clear := by
  rw [clear, clear, h]

end Storage

namespace Stepper

/-! ### What a context puts in -/

section

variable {c : Code} {strict : Bool}

/-- **A context is taken** unless it is strict and names what is not there. -/
lemma fill_eq_ok_iff (context : List (String × Value)) (w : Storage) :
    (fill c strict context w).1 = .ok () ↔
      (strict = true → ∀ entry ∈ context, c.knows entry.1 = true) := by
  induction context generalizing w with
  | nil => simp [fill]
  | cons entry rest ih =>
    obtain ⟨key, v⟩ := entry
    rw [fill, List.forall_mem_cons]
    cases hslot : c.persistent.slot? (contextName key) with
    | some slot =>
      have hknows : c.knows key = true := by rw [Code.knows, hslot, Option.isSome_some]
      simp only [ih, hknows, true_and]
    | none =>
      have hknows : c.knows key = false := by rw [Code.knows, hslot, Option.isSome_none]
      cases strict with
      | true => simp [hknows]
      | false => simp [ih]

lemma fill_filter {context : List (String × Value)} {w : Storage}
    (h : (fill c strict context w).1 = .ok ()) :
    fill c strict (context.filter fun entry => c.knows entry.1) w = fill c strict context w := by
  induction context generalizing w with
  | nil => rfl
  | cons entry rest ih =>
    obtain ⟨key, v⟩ := entry
    rw [fill] at h
    rw [List.filter_cons, fill]
    cases hslot : c.persistent.slot? (contextName key) with
    | some slot =>
      have hknows : c.knows key = true := by rw [Code.knows, hslot, Option.isSome_some]
      rw [hslot] at h
      rw [if_pos hknows, fill, hslot]
      exact ih h
    | none =>
      have hknows : c.knows key = false := by rw [Code.knows, hslot, Option.isSome_none]
      rw [hslot] at h
      rw [if_neg (by simp [hknows])]
      cases strict with
      | true => simp at h
      | false => exact ih h

/-- **The last value under a name counts**, and what was there before if there is none. -/
lemma contents_fill {context : List (String × Value)} {w : Storage}
    (h : (fill c strict context w).1 = .ok ()) {x : String} {slot : ℕ}
    (hx : c.persistent.slot? x = some slot) :
    c.contents (fill c strict context w).2 x =
      ((named context).reverse.lookup x).or (c.contents w x) := by
  induction context generalizing w with
  | nil => rfl
  | cons entry rest ih =>
    obtain ⟨key, v⟩ := entry
    have hnamed : (named ((key, v) :: rest)).reverse =
        (named rest).reverse ++ [(contextName key, v)] := by simp [named]
    rw [fill] at h ⊢
    rw [hnamed, List.lookup_append, Option.or_assoc]
    cases hslot : c.persistent.slot? (contextName key) with
    | some slot' =>
      rw [hslot] at h
      dsimp only at h ⊢
      rw [ih h, Code.contents_set hslot]
    | none =>
      -- the entry is not about this variable
      have hne : x ≠ contextName key := by
        rintro rfl
        cases hx.symm.trans hslot
      rw [hslot] at h
      cases strict with
      | true => simp at h
      | false =>
        have hlookup : [(contextName key, v)].lookup x = none := by
          simp [List.lookup_cons, beq_false_of_ne hne]
        rw [hlookup, Option.none_or]
        exact ih h

variable (c strict) in
lemma changedIn_fill (context : List (String × Value)) (w : Storage) :
    w.ChangedIn (· < c.persistent.size) (fill c strict context w).2 := by
  induction context generalizing w with
  | nil => exact .refl w
  | cons entry rest ih =>
    rw [fill]
    split
    · rename_i slot hslot
      exact (Storage.changedIn_set (SymbolTable.slot?_lt hslot) w entry.2).trans (ih _)
    · split
      · exact .refl w
      · exact ih w

end

/-! ### What no request changes -/

/-- A stepper for the code with the functions of the table, whatever was done with it. -/
structure For (c : Code) (t : FunctionTable) (config : StepperConfig) (s : Stepper) : Prop where
  code : s.code = c
  functions : s.functions = c.resolved t
  config : s.config = config
  size : s.storage.slots.size = c.persistent.size

variable {c : Code} {t : FunctionTable} {config : StepperConfig} {s s' : Stepper}

lemma For.of_create (h : create c t config = .ok s) : s.For c t config := by
  obtain ⟨rfl, -⟩ := create_eq_ok h
  exact ⟨rfl, rfl, rfl, by simp [Storage.ofSize]⟩

lemma For.changedIn (h : s.For c t config) (hs : s.ChangedIn (· < c.persistent.size) s') :
    s'.For c t config :=
  ⟨hs.code.trans h.code, hs.functions.trans h.functions, hs.config.trans h.config,
    hs.storage.size_eq h.size⟩

variable (htime : c.persistent.slot? timeName = some Code.timeSlot)
  (hstepSize : c.persistent.slot? stepSizeName = some Code.stepSizeSlot)

include htime hstepSize

lemma size_blank (h : s.storage.slots.size = c.persistent.size) (time stepSize : Float) :
    (s.blank time stepSize).slots.size = c.persistent.size := by
  have hclear : s.storage.clear.slots.size = c.persistent.size := by
    rw [Storage.clear, Storage.ofSize, Array.size_replicate, h]
  have htimed := (Storage.changedIn_set (SymbolTable.slot?_lt htime) s.storage.clear
    (.scalar time)).size_eq hclear
  exact (Storage.changedIn_set (SymbolTable.slot?_lt hstepSize) _ (.scalar stepSize)).size_eq htimed

lemma For.setUp (h : s.For c t config) (time stepSize : Float)
    (context : List (String × Value)) : (s.setUp time stepSize context).2.For c t config := by
  obtain ⟨rfl, hfunctions, hconfig, hsize⟩ := h
  have hfill := (changedIn_fill s.code s.config.strictContext context
    (s.blank time stepSize)).size_eq (size_blank htime hstepSize hsize time stepSize)
  rw [setUp_eq]
  dsimp only
  split
  · exact ⟨rfl, hfunctions, hconfig, hfill⟩
  · exact ⟨rfl, hfunctions, hconfig, hfill⟩

end Stepper

lemma Stepper.Progress.within_true (progress : Progress) : progress.Within fun _ => True := by
  cases progress <;> trivial

namespace Session

open Stepper

variable {c : Code} {t : FunctionTable} {config : StepperConfig}

/-- **No request changes the code, the functions, the configuration or the size of storage.** -/
theorem for_serveAll (htime : c.persistent.slot? timeName = some Code.timeSlot)
    (hstepSize : c.persistent.slot? stepSizeName = some Code.stepSizeSlot)
    (hslots : ∀ slot, c.StoresTo (fun _ => True) slot → slot < c.persistent.size)
    {x : Session} (h : x.stepper.For c t config) (requests : List Request) :
    (serveAll requests x).2.stepper.For c t config := by
  have hserve : ∀ {x : Session}, x.stepper.For c t config → ∀ request : Request,
      (x.serve request).2.stepper.For c t config := by
    intro x h request
    cases request with
    | setUp time stepSize context => exact h.setUp htime hstepSize time stepSize context
    | setStepSize stepSize =>
      exact h.changedIn ⟨rfl, rfl, rfl,
        Storage.changedIn_set (SymbolTable.slot?_lt hstepSize) _ _⟩
    | step => exact h.changedIn (changedIn_start (Q := fun _ => True) fun _ _ => trivial).1
    | run steps => exact h
    | pull =>
      obtain ⟨stepper, stream⟩ := x
      cases stream with
      | none => exact h
      | some stream =>
        obtain ⟨hnext, -⟩ := Stream.changedIn_next (t := stream)
          ⟨stream.progress.within_true, fun _ _ => trivial⟩ stepper
        have hcode : stepper.code = c := h.code
        exact h.changedIn ⟨hnext.code, hnext.functions, hnext.config,
          hnext.storage.mono fun slot hslot => hslots slot (hcode ▸ hslot)⟩
    | drop => exact h
  induction requests generalizing x with
  | nil => exact h
  | cons request requests ih => exact ih (hserve h request)

end Session

namespace Stepper

variable {c : Code} {t : FunctionTable} {config : StepperConfig} {s s' : Stepper}

/-- **A set-up that succeeds makes one stepper of all.** -/
lemma For.setUp_eq (h : s.For c t config) (h' : s'.For c t config) {time stepSize : Float}
    {context : List (String × Value)} (hok : (s.setUp time stepSize context).1 = .ok ()) :
    s.setUp time stepSize context = s'.setUp time stepSize context := by
  have hblank : s.blank time stepSize = s'.blank time stepSize := by
    simp only [blank, Storage.clear_congr (h.size.trans h'.size.symm)]
  have hfill : fill s.code s.config.strictContext context (s.blank time stepSize) =
      fill s'.code s'.config.strictContext context (s'.blank time stepSize) := by
    rw [hblank, h.code, h'.code, h.config, h'.config]
  rw [Stepper.setUp_eq] at hok ⊢
  rw [Stepper.setUp_eq, hfill]
  dsimp only at hok ⊢
  rw [hfill] at hok
  rw [hok, h.code, h.functions, h.config, h'.code, h'.functions, h'.config]

end Stepper

/-- **A set-up that succeeds erases the history.** Take a stepper for the code of an accepted
program, any history of requests to it, and a set-up.

The set-up succeeds unless the context is strict and has a key that names no persistent variable. If
it succeeds, the whole stepper is what a new one would be after the same set-up, so all that it ever
tells from then on is the same; keys that name no persistent variable have no part in this; and each
persistent variable has the last value that it is given, the time and the step size being given
before the context, and no value if it is given none. -/
theorem setUp_erases_history {instructions : InstructionSet} {states : List State}
    {initial : String} {p : Program} (hp : Program.create instructions states initial = .ok p)
    {reserved : List String} {c : Code} (hc : Code.ofProgram reserved p = .ok c)
    {t : FunctionTable} {config : StepperConfig} {new : Stepper}
    (hnew : Stepper.create c t config = .ok new) (history : List Session.Request)
    (time stepSize : Float) (context : List (String × Value)) :
    let s := (Session.serveAll history ⟨new, none⟩).2.stepper
    let result := s.setUp time stepSize context
    (result.1 = .ok () ↔
      (config.strictContext = true → ∀ entry ∈ context, c.knows entry.1 = true)) ∧
    (result.1 = .ok () →
      result = new.setUp time stepSize context ∧
      result = s.setUp time stepSize (context.filter fun entry => c.knows entry.1) ∧
      ∀ x ∈ c.persistent.symbols.keys,
        result.2.valueOf? x = (Stepper.given time stepSize context).reverse.lookup x) := by
  intro s result
  have hacc := Program.accepted_of_create hp
  have hof := Code.of_ofProgram hacc.name_eq hc
  obtain ⟨htime, hstepSize⟩ := Code.slot?_time_stepSize hc
  have hslots : ∀ slot, c.StoresTo (fun _ => True) slot → slot < c.persistent.size := by
    intro slot hstores
    obtain ⟨_, _, x, -, -, -, hx⟩ := hof.assignee_of_storesTo hacc hstores
    exact SymbolTable.slot?_lt hx
  have hfirst := Stepper.For.of_create hnew
  have hs : s.For c t config := Session.for_serveAll htime hstepSize hslots hfirst history
  have hresult : result.1 = (Stepper.fill c config.strictContext context
      (s.blank time stepSize)).1 := by
    rw [← hs.code, ← hs.config]
    exact congrArg Prod.fst (s.setUp_eq time stepSize context)
  refine ⟨by rw [hresult, Stepper.fill_eq_ok_iff], fun hok => ⟨hs.setUp_eq hfirst hok, ?_, ?_⟩⟩
  · have hfill := Stepper.fill_filter (hresult.symm.trans hok)
    rw [← hs.code, ← hs.config] at hfill
    simp only [result, Stepper.setUp_eq, ← hs.code, hfill]
  · intro x hx
    obtain ⟨slot, hslot⟩ : ∃ slot, c.persistent.slot? x = some slot := by
      rw [← Option.isSome_iff_exists, Option.isSome_iff_ne_none]
      exact fun hnone => SymbolTable.slot?_eq_none_iff.1 hnone hx
    have hafter : result.2.For c t config := hs.setUp htime hstepSize time stepSize context
    have hstorage : result.2.storage = (Stepper.fill c config.strictContext context
        (s.blank time stepSize)).2 := by
      rw [← hs.code, ← hs.config]
      simp only [result, Stepper.setUp_eq]
      split <;> rfl
    have hblank : c.contents (s.blank time stepSize) x =
        [(timeName, .scalar time), (stepSizeName, .scalar stepSize)].reverse.lookup x := by
      have hcode := hs.code
      subst hcode
      exact Stepper.contents_blank htime hstepSize x
    calc result.2.valueOf? x = c.contents result.2.storage x := by
          rw [Stepper.valueOf?, hafter.code, Code.contextName_of_mem_keys hc hx, Code.contents]
      _ = ((Stepper.named context).reverse.lookup x).or
          (c.contents (s.blank time stepSize) x) := by
          rw [hstorage, Stepper.contents_fill (hresult.symm.trans hok) hslot]
      _ = (Stepper.given time stepSize context).reverse.lookup x := by
          rw [hblank, Stepper.given, List.reverse_append, List.lookup_append]

def failThenRefuse : List Session.Request :=
  [.setUp 0 1 [("y", .scalar 5)], .step, .pull, .setUp 7 2 [("z", .scalar 1)], .setStepSize 3]

theorem setUp_erases_failThenRefuse : ∃ (p : Program) (c : Code) (new : Stepper),
    Program.create countOnce countThenRest "first" = .ok p ∧
    Code.ofProgram defaultReserved p = .ok c ∧
    Stepper.create c (.ofList []) { strictContext := true } = .ok new ∧
    let s := (Session.serveAll failThenRefuse ⟨new, none⟩).2.stepper
    let context : List (String × Value) :=
      [("y", .scalar 8), ("<p>k", .scalar 1), ("<state>y", .scalar 9), ("<t>", .scalar 4)]
    s.terminated = true ∧ (s.setUp 1 2 context).1 = .ok () ∧
    s.setUp 1 2 context = new.setUp 1 2 context ∧
    ∀ x ∈ c.persistent.symbols.keys, (s.setUp 1 2 context).2.valueOf? x =
      [("<t>", .scalar 4), ("<state>y", .scalar 9), ("<p>k", .scalar 1), ("<state>y", .scalar 8),
        ("<dt>", .scalar 2), ("<t>", .scalar 1)].lookup x := by
  have hsome : ((Program.create countOnce countThenRest "first").toOption.bind fun p =>
      (Code.ofProgram defaultReserved p).toOption.bind fun c =>
        (Stepper.create c (.ofList []) { strictContext := true }).toOption.bind fun new =>
          if (Session.serveAll failThenRefuse ⟨new, none⟩).2.stepper.terminated = true ∧
            c.knows "y" = true ∧ c.knows "<p>k" = true ∧ c.knows "<state>y" = true ∧
            c.knows "<t>" = true
          then some () else none) = some () := by
    decide +kernel
  obtain ⟨p, hp, hsome⟩ := Option.bind_eq_some_iff.1 hsome
  obtain ⟨c, hc, hsome⟩ := Option.bind_eq_some_iff.1 hsome
  obtain ⟨new, hnew, hsome⟩ := Option.bind_eq_some_iff.1 hsome
  rw [toOption_eq_some] at hp hc hnew
  obtain ⟨hterminated, hknows⟩ := (Option.ite_none_right_eq_some.1 hsome).1
  obtain ⟨hiff, hfacts⟩ := setUp_erases_history hp hc hnew failThenRefuse 1 2
    [("y", .scalar 8), ("<p>k", .scalar 1), ("<state>y", .scalar 9), ("<t>", .scalar 4)]
  have hok := hiff.2 fun _ => by simpa using hknows
  exact ⟨p, c, new, hp, hc, hnew, hterminated, hok, (hfacts hok).1, (hfacts hok).2.2⟩

end TimeMarch
