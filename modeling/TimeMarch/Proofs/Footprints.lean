import TimeMarch.Proofs.PersistentNames
import TimeMarch.Proofs.Readiness
import TimeMarch.Proofs.Resolution
import TimeMarch.Proofs.StepStreams
import TimeMarch.Proofs.Stores
import TimeMarch.Stepper.Stream

/-!
# What a Step May Write

All states share one storage, and a run stores by slots. Yet a step writes only what the
instructions that its state reaches assign: the code of a state has the stores of its schedule and
no others, and two names never have one slot. So a step leaves all other variables as they are,
however far it is carried and however it ends.
-/

namespace TimeMarch

/-! ### Storage that is changed in some slots -/

namespace Storage

/-- Values were put into slots as `P` says, and nothing else was done. -/
def ChangedIn (P : ℕ → Prop) (w w' : Storage) : Prop :=
  ∃ l : List (ℕ × Value), w' = w.setAll l ∧ ∀ e ∈ l, P e.1

variable {P Q : ℕ → Prop} {w w₁ w₂ : Storage}

lemma ChangedIn.refl (w : Storage) : w.ChangedIn P w := ⟨[], rfl, by simp⟩

lemma ChangedIn.trans (h : w.ChangedIn P w₁) (h' : w₁.ChangedIn P w₂) : w.ChangedIn P w₂ := by
  obtain ⟨l, rfl, hl⟩ := h
  obtain ⟨l', rfl, hl'⟩ := h'
  exact ⟨l ++ l', (setAll_append w l l').symm, List.forall_mem_append.2 ⟨hl, hl'⟩⟩

lemma ChangedIn.mono (h : w.ChangedIn P w₁) (hPQ : ∀ slot, P slot → Q slot) :
    w.ChangedIn Q w₁ := by
  obtain ⟨l, hw, hl⟩ := h
  exact ⟨l, hw, fun e he => hPQ e.1 (hl e he)⟩

lemma ChangedIn.get?_eq (h : w.ChangedIn P w₁) {slot : ℕ} (hslot : ¬P slot) :
    w₁.get? slot = w.get? slot := by
  obtain ⟨l, rfl, hl⟩ := h
  have hnone : l.reverse.lookup slot = none := by
    rw [List.lookup_eq_none_iff]
    intro e he
    have hne : slot ≠ e.1 := fun heq => hslot (heq ▸ hl e (List.mem_reverse.1 he))
    exact bne_iff_ne.2 hne
  rw [get?_setAll, hnone, Option.none_or]

end Storage

def Code.StoresTo (c : Code) (Q : ℕ → Prop) (slot : ℕ) : Prop :=
  ∃ i sc, Q i ∧ c.state? i = some sc ∧ .storePersistent slot ∈ sc.ops

namespace Machine

variable {c : Code} {functions : Array Function} {limit : ℕ}

lemma changedIn_resumeIn (s : StateCode) (f : Frame) (w : Storage) :
    w.ChangedIn (fun slot => .storePersistent slot ∈ s.ops)
      (resumeIn c s (Stepper.host c functions) limit f w).2.2 := by
  -- one operation writes what it stores
  have hact : ∀ {f : Frame} {w w' : Storage} {turn : Turn} {r : Registers} (h : f.ip < s.ops.size),
      act c s (Stepper.host c functions) limit s.ops[f.ip] f.toRegisters w = (turn, r, w') →
        w.ChangedIn (fun slot => .storePersistent slot ∈ s.ops) w' := by
    intro f w w' turn r h hw
    exact ⟨_, storage_of_act hw, fun e he => Array.mem_of_getElem (op_of_pending he).1⟩
  fun_induction resumeIn c s (Stepper.host c functions) limit f w with
  | case1 f w h skip r w' hw ih => exact (hact h hw).trans ih
  | case2 f w h y r w' hw => exact hact h hw
  | case3 f w h e r w' hw => exact hact h hw
  | case4 f w h => exact .refl w

lemma changedIn_resume {Q : ℕ → Prop} {f : Frame} (hf : Q f.state) (w : Storage) :
    let q := resume c (Stepper.host c functions) limit f w
    w.ChangedIn (c.StoresTo Q) q.2.2 ∧ Q q.2.1.state := by
  unfold resume
  split
  · rename_i sc hsc
    have hstate := resumeIn_state c limit sc (Stepper.host c functions) f w
    exact ⟨(changedIn_resumeIn sc f w).mono fun slot hslot => ⟨f.state, sc, hf, hsc, hslot⟩,
      hstate.symm ▸ hf⟩
  · exact ⟨.refl w, hf⟩

end Machine

namespace Stepper

/-! ### Steppers and streams -/

structure ChangedIn (P : ℕ → Prop) (s s' : Stepper) : Prop where
  code : s'.code = s.code
  functions : s'.functions = s.functions
  config : s'.config = s.config
  storage : s.storage.ChangedIn P s'.storage

def Progress.Within (Q : ℕ → Prop) : Progress → Prop
  | running f => Q f.state
  | failed _ | done => True

variable {P Q : ℕ → Prop} {s s₁ s₂ : Stepper}

lemma ChangedIn.refl (s : Stepper) : s.ChangedIn P s := ⟨rfl, rfl, rfl, .refl _⟩

lemma ChangedIn.trans (h : s.ChangedIn P s₁) (h' : s₁.ChangedIn P s₂) : s.ChangedIn P s₂ :=
  ⟨h'.code.trans h.code, h'.functions.trans h.functions, h'.config.trans h.config,
    h.storage.trans h'.storage⟩

lemma changedIn_start (hQ : ∀ i, s.current = some i → Q i) :
    s.ChangedIn P s.start.2 ∧ s.start.1.Within Q := by
  unfold start
  split
  · exact ⟨.refl s, trivial⟩
  · split
    · exact ⟨.refl s, trivial⟩
    · rename_i i hi
      unfold Frame.start
      split
      · rename_i f hf
        split at hf
        · cases hf
          exact ⟨.refl s, hQ i hi⟩
        · cases hf
      · exact ⟨⟨rfl, rfl, rfl, .refl _⟩, trivial⟩

lemma changedIn_react (s : Stepper) {f : Frame} (hf : Q f.state)
    (result : Except MachineError Yield) :
    s.ChangedIn P (s.react f result).2.2 ∧ (s.react f result).2.1.Within Q := by
  rcases result with e | y
  · exact ⟨⟨rfl, rfl, rfl, .refl _⟩, trivial⟩
  · cases y with
    | emitted component timeId time value => exact ⟨.refl s, hf⟩
    | completed next => exact ⟨⟨rfl, rfl, rfl, .refl _⟩, trivial⟩
    | aborted => exact ⟨.refl s, trivial⟩
    | raised i => exact ⟨⟨rfl, rfl, rfl, .refl _⟩, trivial⟩

lemma changedIn_advance (s : Stepper) {progress : Progress} (h : progress.Within Q) :
    s.ChangedIn (s.code.StoresTo Q) (s.advance progress).2.2 ∧
      (s.advance progress).2.1.Within Q := by
  cases progress with
  | running f =>
    let q := Machine.resume s.code (host s.code s.functions) s.config.stackLimit f s.storage
    obtain ⟨hstorage, hstate⟩ : s.storage.ChangedIn (s.code.StoresTo Q) q.2.2 ∧ Q q.2.1.state :=
      Machine.changedIn_resume h s.storage
    have hresumed : s.ChangedIn (s.code.StoresTo Q) { s with storage := q.2.2 } :=
      ⟨rfl, rfl, rfl, hstorage⟩
    obtain ⟨hreacted, hwithin⟩ := changedIn_react { s with storage := q.2.2 } hstate q.1
    exact ⟨hresumed.trans hreacted, hwithin⟩
  | failed e => exact ⟨.refl s, trivial⟩
  | done => exact ⟨.refl s, trivial⟩

end Stepper

namespace Stream

open Stepper

variable {Q : ℕ → Prop}

def Within (Q : ℕ → Prop) (t : Stream) : Prop :=
  t.progress.Within Q ∧ (0 < t.remaining → ∀ i, Q i)

lemma changedIn_next {t : Stream} (h : t.Within Q) (s : Stepper) :
    s.ChangedIn (s.code.StoresTo Q) (t.next s).2.2 ∧ (t.next s).2.1.Within Q := by
  obtain ⟨hprogress, hremaining⟩ := h
  have hpull : ∀ {t : Stream} (s : Stepper), t.Within Q →
      s.ChangedIn (s.code.StoresTo Q) (t.pull s).2.2 ∧ (t.pull s).2.1.Within Q := by
    intro t s ht
    obtain ⟨hchanged, hwithin⟩ := changedIn_advance s ht.1
    exact ⟨hchanged, hwithin, ht.2⟩
  unfold next
  split
  · exact ⟨.refl s, hprogress, hremaining⟩
  · split
    · exact ⟨.refl s, hprogress, hremaining⟩
    · rename_i n hdone hn
      have hall : ∀ i, Q i := hremaining (by omega)
      obtain ⟨hstart, hbegun⟩ := changedIn_start (P := s.code.StoresTo Q) (s := s)
        fun i _ => hall i
      have hnext := hpull (t := { remaining := n, progress := s.start.1 }) s.start.2
        ⟨hbegun, fun _ => hall⟩
      rw [hstart.code] at hnext
      exact ⟨hstart.trans hnext.1, hnext.2⟩
    · exact hpull s ⟨hprogress, hremaining⟩

/-- **A stream writes what the code of its states stores**, however far it is carried. -/
theorem changedIn_poll (n : ℕ) {t : Stream} (h : t.Within Q) (s : Stepper) :
    s.ChangedIn (s.code.StoresTo Q) (poll n t s).2 := by
  induction n generalizing t s with
  | zero => exact .refl s
  | succ n ih =>
    obtain ⟨hnext, hwithin⟩ := changedIn_next h s
    have hrest := ih hwithin (t.next s).2.2
    rw [hnext.code] at hrest
    exact hnext.trans hrest

end Stream

/-! ### What the code of a state stores -/

section

variable {literals : List Value} {p : Program} {g : Scope} {slot : ℕ}

lemma ExprCode.notMem_of_store {l : List Expr} {code : List Op} (h : ExprCode literals g l code) :
    .storePersistent slot ∉ code :=
  fun hmem => nomatch h.computes _ hmem

lemma ActionCode.assign_of_store {a : Action} {code : List Op} (h : ActionCode p g a code)
    (hmem : .storePersistent slot ∈ code) :
    ∃ x e, a = .assign x e ∧ g.persistent.slot? x = some slot := by
  cases h with
  | @assign x e place code he hplace =>
    have hstore : .storePersistent slot = place.store := by
      simpa [he.notMem_of_store] using hmem
    refine ⟨x, e, rfl, ?_⟩
    cases place with
    | persistent slot' =>
      cases hstore
      unfold Scope.slot? at hplace
      split at hplace
      · simpa using hplace
      · simp at hplace
    | ofState slot' => cases hstore
  | emit he _ _ => simp [he.notMem_of_store] at hmem
  | abort => simp at hmem
  | raise _ => simp at hmem
  | transition _ => simp at hmem

lemma StepCode.assignee_of_store {steps : List Step} {code : List Op}
    (h : StepCode p g steps code) (hmem : .storePersistent slot ∈ code) :
    ∃ id ∈ Step.idsOf steps, ∃ i x, p.instructions.get? id = some i ∧ i.assignee? = some x ∧
      g.persistent.slot? x = some slot := by
  induction h with
  | nil => cases hmem
  | @run id i code rest k hi hcode _ ih =>
    simp only [Step.idsOf, Step.ids, List.mem_append] at hmem ⊢
    rcases hmem with hmem | hmem
    · obtain ⟨x, e, haction, hslot⟩ := hcode.assign_of_store hmem
      exact ⟨id, .inl List.mem_cons_self, i, x, hi, by rw [Instruction.assignee?, haction], hslot⟩
    · obtain ⟨id', hid, hassign⟩ := ih hmem
      exact ⟨id', .inr hid, hassign⟩
  | ifOnly hi haction hc _ _ ihyes ihrest =>
    simp only [List.mem_append, List.mem_cons, hc.notMem_of_store, reduceCtorEq, false_or] at hmem
    simp only [Step.idsOf, Step.ids, List.mem_append]
    rcases hmem with hmem | hmem
    · obtain ⟨id', hid, hassign⟩ := ihyes hmem
      exact ⟨id', .inl (.inl (.inl hid)), hassign⟩
    · obtain ⟨id', hid, hassign⟩ := ihrest hmem
      exact ⟨id', .inr hid, hassign⟩
  | ifElse hi haction hc _ _ _ ihyes ihno ihrest =>
    simp only [List.mem_append, List.mem_cons, hc.notMem_of_store, reduceCtorEq, false_or] at hmem
    simp only [Step.idsOf, Step.ids, List.mem_append]
    rcases hmem with hmem | hmem | hmem
    · obtain ⟨id', hid, hassign⟩ := ihyes hmem
      exact ⟨id', .inl (.inl (.inl hid)), hassign⟩
    · obtain ⟨id', hid, hassign⟩ := ihno hmem
      exact ⟨id', .inl (.inl (.inr hid)), hassign⟩
    · obtain ⟨id', hid, hassign⟩ := ihrest hmem
      exact ⟨id', .inr hid, hassign⟩

end

/-- The variables that the instructions of a state assign, over both arms of branches. -/
def Program.assignees (p : Program) (state : String) : List String :=
  ((p.reachable? state).elim [] Roster.keys).filterMap fun id =>
    (p.instructions.get? id).bind Instruction.assignee?

/-- **What the code of a state stores, the state assigns.** -/
theorem Code.Of.assignee_of_storesTo {p : Program} {c : Code} (h : c.Of p) (hp : p.Accepted)
    {Q : ℕ → Prop} {slot : ℕ} (hslot : c.StoresTo Q slot) :
    ∃ i sc x, Q i ∧ c.state? i = some sc ∧ x ∈ p.assignees sc.name ∧
      c.persistent.slot? x = some slot := by
  obtain ⟨i, sc, hi, hsc, hmem⟩ := hslot
  obtain ⟨st, hst, hof⟩ := h.exists_state hsc
  obtain ⟨key, hkey⟩ := (Roster.mem_values_iff _ _).1 (List.mem_of_getElem? hst)
  have hst : p.state? sc.name = some st := by
    rw [hof.name_eq, hp.name_eq hkey]
    exact hkey
  obtain ⟨steps, body, hsteps, hbody, hops⟩ := hof.ops
  have hmem : .storePersistent slot ∈ body := by
    rw [← Array.mem_toList_iff, hops] at hmem
    simpa using hmem
  obtain ⟨id, hid, instruction, x, hget, hassign, hx⟩ := hbody.assignee_of_store hmem
  have hreachable := (Schedule.ready_of_ofRoots hp.exists_of_dependsOn hsteps).2 id hid
  refine ⟨i, sc, x, hi, hsc, ?_, hx⟩
  rw [Program.assignees, Program.reachable?, hst]
  exact List.mem_filterMap.2 ⟨id, (Graph.mem_reachable_iff _ _ _).2 hreachable,
    by rw [hget, Option.bind_some, hassign]⟩

/-- **A step writes only what its state assigns.** Take any stepper for the code of an accepted
program, with whatever functions, variables and current state, and ask a step of it for any number
of items. A persistent variable that no instruction of the current state assigns has the value that
it had before, or still none. -/
theorem step_writes_only_assignees {instructions : InstructionSet} {states : List State}
    {initial : String} {p : Program} (hp : Program.create instructions states initial = .ok p)
    {reserved : List String} {c : Code} (hc : Code.ofProgram reserved p = .ok c) {s : Stepper}
    (hs : s.code = c) (n : ℕ) {x : String} (hx : x ∈ c.persistent.symbols.keys)
    (hother : ∀ state, s.currentState? = some state → x ∉ p.assignees state) :
    (Stream.poll n s.step.1 s.step.2).2.valueOf? x = s.valueOf? x := by
  subst hs
  have hacc := Program.accepted_of_create hp
  have hof := Code.of_ofProgram hacc.name_eq hc
  -- all that is written, the code of the current state stores
  obtain ⟨hstart, hbegun⟩ := Stepper.changedIn_start
    (P := s.code.StoresTo (s.current = some ·)) (Q := (s.current = some ·)) fun _ hi => hi
  have hpoll := Stream.changedIn_poll n (t := s.step.1) ⟨hbegun, by simp [Stepper.step]⟩ s.step.2
  have hcode : s.step.2.code = s.code := hstart.code
  rw [hcode] at hpoll
  have hchanged := hstart.trans hpoll
  obtain ⟨slot, hslot⟩ : ∃ slot, s.code.persistent.slot? x = some slot := by
    rw [← Option.isSome_iff_exists, Option.isSome_iff_ne_none]
    exact fun hnone => SymbolTable.slot?_eq_none_iff.1 hnone hx
  -- and the slot of another variable is another one
  have hfree : ¬s.code.StoresTo (s.current = some ·) slot := by
    intro hstores
    obtain ⟨i, sc, y, hi, hsc, hy, hyslot⟩ := hof.assignee_of_storesTo hacc hstores
    obtain rfl : y = x := SymbolTable.slot?_inj hyslot hslot
    refine hother sc.name ?_ hy
    rw [Stepper.currentState?, hi, Option.bind_some, hsc, Option.map_some]
  rw [Stepper.valueOf?, Stepper.valueOf?, hchanged.code, Code.contextName_of_mem_keys hc hx, hslot,
    Option.bind_some, Option.bind_some]
  exact hchanged.storage.get?_eq hfree

def guessThenAccept : InstructionSet :=
  (InstructionSet.empty.addAll [
    ⟨"guess", ∅, .assign "<p>guess" (.binary .add (.var "<state>y") (.var "<dt>"))⟩,
    ⟨"show", .ofList ["guess"], .emit (.var "<t>") "now" (.var "<p>guess") "y"⟩,
    ⟨"accept", ∅, .assign "<state>y" (.var "<p>guess")⟩]).toOption.getD .empty

theorem step_writes_only_guess : ∃ (p : Program) (c : Code) (s : Stepper),
    Program.create guessThenAccept [⟨"guess", ["show"], "accept"⟩, ⟨"accept", ["accept"], "guess"⟩]
      "guess" = .ok p ∧
    Code.ofProgram defaultReserved p = .ok c ∧ s.code = c ∧ s.currentState? = some "guess" ∧
    p.assignees "guess" = ["<p>guess"] ∧
    let s' := (Stream.poll 1 s.step.1 s.step.2).2
    ((s.valueOf? "<p>guess").map Value.text, (s'.valueOf? "<p>guess").map Value.text) =
      (none, some "6") ∧
    s'.valueOf? "<state>y" = s.valueOf? "<state>y" ∧ s'.valueOf? "<t>" = s.valueOf? "<t>" := by
  have hsome : ((Program.create guessThenAccept
      [⟨"guess", ["show"], "accept"⟩, ⟨"accept", ["accept"], "guess"⟩] "guess").toOption.bind
        fun p => (Code.ofProgram defaultReserved p).toOption.bind fun c =>
          (Stepper.create c .empty).toOption.bind fun s₀ =>
            let s := (s₀.setUp 0 1 [("y", .scalar 5)]).2
            let s' := (Stream.poll 1 s.step.1 s.step.2).2
            if s.currentState? = some "guess" ∧ p.assignees "guess" = ["<p>guess"] ∧
              ((s.valueOf? "<p>guess").map Value.text, (s'.valueOf? "<p>guess").map Value.text) =
                (none, some "6") ∧
              "<state>y" ∈ c.persistent.symbols.keys ∧ "<t>" ∈ c.persistent.symbols.keys
            then some () else none) = some () := by
    decide +kernel
  obtain ⟨p, hp, hsome⟩ := Option.bind_eq_some_iff.1 hsome
  obtain ⟨c, hc, hsome⟩ := Option.bind_eq_some_iff.1 hsome
  obtain ⟨s₀, hs₀, hsome⟩ := Option.bind_eq_some_iff.1 hsome
  rw [toOption_eq_some] at hp hc hs₀
  obtain ⟨hguess, hassignees, hvalues, hy, ht⟩ := (Option.ite_none_right_eq_some.1 hsome).1
  have hcode : (s₀.setUp 0 1 [("y", .scalar 5)]).2.code = c := by
    obtain ⟨rfl, -⟩ := Stepper.create_eq_ok hs₀
    unfold Stepper.setUp
    dsimp only
    split <;> rfl
  refine ⟨p, c, _, hp, hc, hcode, hguess, hassignees, hvalues,
    step_writes_only_assignees hp hc hcode 1 hy ?_, step_writes_only_assignees hp hc hcode 1 ht ?_⟩
  · intro state hstate
    obtain rfl := Option.some.inj (hguess.symm.trans hstate)
    rw [hassignees]
    decide
  · intro state hstate
    obtain rfl := Option.some.inj (hguess.symm.trans hstate)
    rw [hassignees]
    decide

end TimeMarch
