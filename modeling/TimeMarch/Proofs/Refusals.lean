import TimeMarch.Proofs.Composition
import TimeMarch.Proofs.Schedulability

/-!
# Why Code Generation Fails

For an accepted program every state has a schedule, and all that lowering looks up is there. What is
left to go wrong are the limits of tables and jumps, and a function whose name is used as a
variable. `FailsWith` says of a computation what its failures are; what is known of the parts is
then known of the whole.
-/

namespace TimeMarch

/-- Failures that remain for an accepted program. `uses` tells which instruction reads or assigns
which variable. -/
def CodeError.Legitimate (uses : String → String → Prop) : CodeError → Prop
  | invalidVariable name instruction => Name.space name = .function ∧ uses instruction name
  | tableOverflow _ => True
  | jumpTooFar distance => jumpLimit < distance
  | build _ | cycle _ _ | illegalReserved _ => False

/-! ### Failures of computations -/

section

variable {ε α β : Type} {E : ε → Prop}

def FailsWith (E : ε → Prop) (x : Except ε α) : Prop := ∀ e, x = .error e → E e

lemma FailsWith.ok (a : α) : FailsWith E (.ok a) := by
  intro e h
  cases h

lemma FailsWith.error {e : ε} (h : E e) : FailsWith E (.error e : Except ε α) := by
  intro e' he
  cases he
  exact h

lemma FailsWith.bind {x : Except ε α} {f : α → Except ε β} (hx : FailsWith E x)
    (hf : ∀ a, x = .ok a → FailsWith E (f a)) : FailsWith E (x >>= f) := by
  intro e h
  cases x with
  | error e' =>
    cases h
    exact hx e rfl
  | ok a => exact hf a rfl e h

lemma FailsWith.foldlM {f : β → α → Except ε β} {l : List α}
    (hf : ∀ b, ∀ a ∈ l, FailsWith E (f b a)) (b : β) : FailsWith E (l.foldlM f b) := by
  induction l generalizing b with
  | nil => exact .ok b
  | cons a l ih =>
    rw [List.foldlM_cons]
    exact (hf b a (by simp)).bind fun b' _ => ih (fun b a ha => hf b a (by simp [ha])) b'

end

namespace Lowering

section

variable {α β : Type} {E : CodeError → Prop} {x : Lowering α} {f : α → Lowering β}

def FailsWith (E : CodeError → Prop) (x : Lowering α) : Prop :=
  ∀ scope, TimeMarch.FailsWith E (x scope)

lemma FailsWith.pure (a : α) : FailsWith E (pure a) := fun _ => .ok _

lemma FailsWith.throw_bind {e : CodeError} (h : E e) :
    FailsWith E ((throw e : Lowering α) >>= f) :=
  fun _ => .error h

lemma FailsWith.throw {e : CodeError} (h : E e) : FailsWith E (throw e : Lowering α) :=
  fun _ => .error h

lemma FailsWith.bind (hx : FailsWith E x) (hf : ∀ a, FailsWith E (f a)) :
    FailsWith E (x >>= f) :=
  fun scope => (hx scope).bind fun a _ => hf a.1 a.2

lemma FailsWith.lift {y : Except CodeError α} (h : TimeMarch.FailsWith E y) :
    FailsWith E (liftM y) :=
  fun _ => h.bind fun _ _ => .ok _

lemma FailsWith.onPart {τ : Type} [Inhabited τ] {get : Scope → τ} {put : τ → Scope → Scope}
    {g : τ → Except CodeError (α × τ)} (hg : ∀ part, TimeMarch.FailsWith E (g part)) :
    FailsWith E (onPart get put g) :=
  fun scope => (hg (get scope)).bind fun _ _ => .ok _

end

/-! ### Tables, slots and jumps -/

section

variable {E : CodeError → Prop} {reserved : Std.TreeSet String} {table : Table}

lemma operand_failsWith (h : E (.tableOverflow table)) (i : ℕ) :
    TimeMarch.FailsWith E (operand table i) := by
  unfold operand
  split
  · exact .ok i
  · exact .error h

lemma symbolTable_failsWith (h : E (.tableOverflow .symbol)) (name : String) (t : SymbolTable) :
    TimeMarch.FailsWith E (t.intern reserved name) := by
  intro e he
  have hrequest : (t.request reserved name).1 = .error e := by
    unfold SymbolTable.intern at he
    split at he
    · cases he
    · rename_i e' t' hrequest
      rw [hrequest]
      exact congrArg _ (Except.error.inj he)
  cases hslot : t.slot? name with
  | some i =>
    rw [SymbolTable.request_of_slot? hslot] at hrequest
    exact operand_failsWith h i e hrequest
  | none =>
    rw [SymbolTable.request_of_slot?_eq_none hslot] at hrequest
    split at hrequest
    · cases hrequest
    · cases hrequest
      exact h

lemma intern_failsWith (h : E (.tableOverflow .symbol)) (family : Family) (name : String) :
    FailsWith E (intern reserved family name) :=
  .onPart (symbolTable_failsWith h name)

lemma pool_failsWith {α : Type} [BEq α] (h : E (.tableOverflow table)) (a : α)
    (entries : Array α) : TimeMarch.FailsWith E (pool table a entries) := by
  unfold pool
  split
  · exact (operand_failsWith h _).bind fun _ _ => .ok _
  · exact (operand_failsWith h _).bind fun _ _ => .ok _

lemma addLiteral_failsWith (h : E (.tableOverflow .literal)) (v : Value) :
    FailsWith E (addLiteral v) :=
  .onPart (pool_failsWith h v)

lemma addKeywordSet_failsWith (h : E (.tableOverflow .keyword)) (names : List String) :
    FailsWith E (addKeywordSet names) :=
  .onPart (pool_failsWith h names)

lemma addRaise_failsWith (h : E (.tableOverflow .raise)) (kind message : String) :
    FailsWith E (addRaise kind message) :=
  .onPart fun _ => (operand_failsWith h _).bind fun _ _ => .ok _

lemma jumpOver_failsWith (h : ∀ distance, jumpLimit < distance → E (.jumpTooFar distance))
    (distance : ℕ) : FailsWith E (jumpOver distance) := by
  unfold jumpOver
  split
  · exact .pure _
  · exact .throw (h _ (Nat.lt_of_not_le ‹_›))

lemma variableSlot_failsWith {uses : String → String → Prop} {instruction x : String}
    (h : uses instruction x) :
    FailsWith (CodeError.Legitimate uses) (variableSlot reserved instruction x) := by
  unfold variableSlot
  split
  · exact .throw ⟨‹_›, h⟩
  · split
    · exact (intern_failsWith trivial .persistent x).bind fun _ => .pure _
    · exact (intern_failsWith trivial .ofState x).bind fun _ => .pure _

end

/-! ### Steps -/

lemma composes_failsWith {E : CodeError → Prop}
    (htable : ∀ table, table ≠ .symbol → E (.tableOverflow table))
    (hjump : ∀ distance, jumpLimit < distance → E (.jumpTooFar distance)) :
    Composes fun _ _ x => FailsWith E x where
  pure := .pure
  bind hx hf := hx.bind hf
  literal := addLiteral_failsWith (htable _ (by simp))
  keywordSet := addKeywordSet_failsWith (htable _ (by simp))
  raise := addRaise_failsWith (htable _ (by simp))
  jumpOver := jumpOver_failsWith hjump
  tooMany _ := .throw_bind (htable _ (by simp))

section

variable {p : Program} {uses : String → String → Prop} {reserved : Std.TreeSet String}

lemma stateIndex_failsWith {name : String} (h : p.states.contains name = true) :
    TimeMarch.FailsWith (CodeError.Legitimate uses) (stateIndex p name) := by
  obtain ⟨i, hi⟩ := Option.isSome_iff_exists.1 h
  rw [stateIndex, hi]
  exact operand_failsWith trivial i

lemma allowsAll_legitimate {i : Instruction}
    (h : ∀ x, x ∈ i.reads ∨ i.assignee? = some x → uses i.id x)
    (htransition : ∀ next, i.action = .transition next → p.states.contains next = true) :
    AllowsAll (fun _ _ x => FailsWith (CodeError.Legitimate uses) x) p reserved i where
  mention m hm := by
    cases m with
    | read x => exact variableSlot_failsWith (h x (.inl (mem_reads.2 hm)))
    | call f => exact intern_failsWith trivial .function f
  assignee x hx := variableSlot_failsWith (h x (.inr hx))
  label _ _ _ _ _ l := intern_failsWith trivial .label l
  transition next hnext := .lift (stateIndex_failsWith (htransition next hnext))

lemma steps_failsWith (hp : p.Accepted) {state : String} {l : List Step}
    (hl : Schedule.Shaped p.instructions l)
    (h : ∀ id ∈ Step.idsOf l, ∀ i, p.instructions.get? id = some i →
      ∀ x, x ∈ i.reads ∨ i.assignee? = some x → uses id x) :
    FailsWith (CodeError.Legitimate uses) (steps p reserved state l) := by
  refine (composes_failsWith (fun _ _ => trivial) fun _ hlt => hlt).steps hl fun id hid i hi => ?_
  have heq : i.id = id := (Graph.mem_toList_of_get? hi).2
  exact allowsAll_legitimate (heq ▸ h id hid i hi) fun next hnext => hp.transition hi hnext

end

end Lowering

/-! ### Programs -/

/-- An instruction that is scheduled for some state reads or assigns the variable. -/
def Program.Uses (p : Program) (id x : String) : Prop :=
  ∃ name st steps i, p.state? name = some st ∧
    Schedule.ofRoots p.instructions st.roots = .ok steps ∧ id ∈ Step.idsOf steps ∧
    p.instructions.get? id = some i ∧ (x ∈ i.reads ∨ i.assignee? = some x)

lemma Program.Accepted.exists_schedule {p : Program} (hp : p.Accepted) {name : String} {st : State}
    (hst : p.state? name = some st) : ∃ steps,
      Schedule.ofRoots p.instructions st.roots = .ok steps ∧
        Schedule.Shaped p.instructions steps := by
  obtain ⟨plan, hplan⟩ := Schedule.exists_unit_of_accepted hp hst
  exact ⟨plan.steps, bind_eq_ok.2 ⟨plan, hplan, rfl⟩, Schedule.shaped_of_unit hplan⟩

lemma Lowering.state_failsWith {p : Program} (hp : p.Accepted) {name : String} {st : State}
    (hst : p.state? name = some st) (reserved : Std.TreeSet String) (t : Tables) :
    TimeMarch.FailsWith (CodeError.Legitimate p.Uses) (Lowering.state p reserved st t) := by
  obtain ⟨steps, hsteps, hshaped⟩ := hp.exists_schedule hst
  unfold Lowering.state
  rw [hsteps]
  refine (TimeMarch.FailsWith.ok steps).bind fun steps' hsteps' => ?_
  obtain rfl := Except.ok.inj hsteps'
  exact (stateIndex_failsWith (hp.next hst)).bind fun _ _ =>
    (steps_failsWith hp hshaped (fun id hid i hi x hx =>
      ⟨name, st, steps, i, hst, hsteps, hid, hi, hx⟩) _).bind fun _ _ => .ok _

/-- **An accepted program is scheduled, and code generation fails for no other reason than its
limits.** Every state has a schedule, whose steps are branches where the instructions are. Where all
reserved words are identifiers, generating code fails only because a table or a jump
outgrows its operand, or because a scheduled instruction uses a function as a variable. -/
theorem exists_schedule_and_legitimate {instructions : InstructionSet} {states : List State}
    {initial : String} {p : Program} (hp : Program.create instructions states initial = .ok p) :
    (∀ name st, p.state? name = some st → ∃ steps,
      Schedule.ofRoots p.instructions st.roots = .ok steps ∧
        Schedule.Shaped p.instructions steps) ∧
    ∀ reserved, (∀ word ∈ reserved, Name.isLegal word = true) → ∀ e,
      Code.ofProgram reserved p = .error e → e.Legitimate p.Uses := by
  have hacc := Program.accepted_of_create hp
  refine ⟨fun name st hst => hacc.exists_schedule hst, fun reserved hreserved => ?_⟩
  have hwords : reservedSet reserved = .ok (Std.TreeSet.ofList reserved) := by
    have hnone : (reserved.find? fun word => !Name.isLegal word) = none := by
      simpa using hreserved
    rw [reservedSet, hnone]
  unfold Code.ofProgram
  rw [hwords]
  refine (FailsWith.ok _).bind fun words _ =>
    (Lowering.symbolTable_failsWith trivial timeName {}).bind fun t₁ _ =>
    (Lowering.symbolTable_failsWith trivial stepSizeName t₁.2).bind fun t₂ _ =>
    FailsWith.bind (.foldlM (fun b st hst => ?_) _) fun _ _ =>
    (Lowering.stateIndex_failsWith hacc.initial).bind fun _ _ => .ok _
  obtain ⟨name, hname⟩ := (Roster.mem_values_iff _ _).1 hst
  exact (Lowering.state_failsWith hacc hname words b.2).bind fun _ _ => .ok _

def functionAsVariable : InstructionSet :=
  (InstructionSet.empty.addAll [
    ⟨"guess", ∅, .assign "k" (.literal (.scalar 1))⟩,
    ⟨"copy", .ofList ["guess"], .assign "<p>y" (.var "<func>f")⟩,
    ⟨"test", .ofList ["guess"], .branch (.binary .lt (.var "k") (.var "<dt>"))
      (.ofList ["copy"]) ∅⟩]).toOption.getD .empty

theorem exists_schedule_and_legitimate_function : ∃ p,
    Program.create functionAsVariable [⟨"s", ["test"], "s"⟩] "s" = .ok p ∧
    (∀ name st, p.state? name = some st → ∃ steps,
      Schedule.ofRoots p.instructions st.roots = .ok steps ∧
        Schedule.Shaped p.instructions steps) ∧
    (∀ word ∈ defaultReserved, Name.isLegal word = true) ∧
    Code.ofProgram defaultReserved p = .error (.invalidVariable "<func>f" "copy") ∧
    (CodeError.invalidVariable "<func>f" "copy").Legitimate p.Uses := by
  have hsome : ((Program.create functionAsVariable [⟨"s", ["test"], "s"⟩] "s").toOption.map fun p =>
      (Code.ofProgram defaultReserved p).map fun _ => ()) =
        some (.error (.invalidVariable "<func>f" "copy")) := by
    decide +kernel
  obtain ⟨p, hp, hcode⟩ := Option.map_eq_some_iff.1 hsome
  rw [toOption_eq_some] at hp
  have hwords : ∀ word ∈ defaultReserved, Name.isLegal word = true := by decide +kernel
  have herror := map_eq_error.1 hcode
  have h := exists_schedule_and_legitimate hp
  exact ⟨p, hp, h.1, hwords, herror, h.2 _ hwords _ herror⟩

end TimeMarch
