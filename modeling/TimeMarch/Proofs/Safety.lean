import TimeMarch.Proofs.Balance
import TimeMarch.Proofs.Resolution
import TimeMarch.Stepper.Stream

/-!
# Sound Code Runs Safely

One operation of sound code, carried out on a stack of the right depth, leaves a stack of the right
depth, and what it hands over refers to entries that exist. So does a frame that is resumed, a step
that is carried on, and a stepper in the hands of its caller, whatever it is asked to do and how
often. What can go wrong is what programs and host functions do themselves.
-/

namespace TimeMarch

/-- Failures for which the program or a function of the host is to blame. A function fails with a
message of its own. -/
def MachineError.Expected (t : FunctionTable) : MachineError → Prop
  | undefinedVariable _ | typeMismatch _ | stackOverflow _ | argumentResolution _ _ => True
  | functionFailed symbol message =>
    ∃ f args, t.resolve? symbol = some f ∧ f.body args = .error message
  | stackUnderflow | unknownState _ | danglingOperand _ _ => False

lemma FunctionTable.expected_of_apply {t : FunctionTable} {symbol : String} {f : Function}
    (hf : t.resolve? symbol = some f) {positional : List Value} {keywords : List (String × Value)}
    {e : MachineError} (h : t.apply symbol positional keywords = .error e) : e.Expected t := by
  rw [apply, hf, Function.reply] at h
  split at h
  · cases h
    trivial
  · rename_i message hcall
    cases h
    obtain ⟨args, hargs⟩ := Function.exists_body_of_call hcall
    exact ⟨f, args, hf, hargs⟩
  · cases h

structure Registers.Safe (c : Code) (s : StateCode) (ops : List Op) (r : Registers) : Prop where
  size : r.locals.size = s.locals.size
  transition : ∀ i, r.transition = some i → i < c.states.size
  balanced : Balanced c.toTables r.stack.length ops

def Yield.InRange (c : Code) : Yield → Prop
  | emitted component timeId _ _ => component < c.labels.size ∧ timeId < c.labels.size
  | completed next => next < c.states.size
  | aborted => True
  | raised i => i < c.raises.size

def Machine.Turn.Safe (c : Code) (s : StateCode) (t : FunctionTable) (rest : List Op)
    (r : Registers) : Turn → Prop
  | go skip => r.Safe c s (rest.drop skip)
  | stop y => y.InRange c ∧
    ∀ component timeId time value, y = .emitted component timeId time value → r.Safe c s rest
  | fail e => e.Expected t

lemma Balanced.plain_inv {t : Tables} {depth taken put : ℕ} {op : Op} {rest : List Op}
    (h : Balanced t depth (op :: rest)) (heffect : op.effect? t = some (taken, put)) :
    taken ≤ depth ∧ Balanced t (depth - taken + put) rest := by
  cases h with
  | complete => cases heffect
  | jump h => cases heffect
  | jumpIfFalse hyes hno => cases heffect
  | plain h hdepth hrest =>
    obtain ⟨rfl, rfl⟩ := Prod.mk.inj (Option.some.inj (h.symm.trans heffect))
    rw [hdepth, Nat.add_sub_cancel]
    exact ⟨Nat.le_add_left _ _, hrest⟩

lemma Balanced.ne_nil {t : Tables} {depth : ℕ} {ops : List Op} (h : Balanced t depth ops) :
    ops ≠ [] := by
  rintro rfl
  cases h

lemma Balanced.jump_inv {t : Tables} {depth offset : ℕ} {rest : List Op}
    (h : Balanced t depth (.jump offset :: rest)) : Balanced t depth (rest.drop offset) := by
  cases h with
  | jump h => exact h
  | plain h => cases h

lemma Balanced.jumpIfFalse_inv {t : Tables} {depth offset : ℕ} {rest : List Op}
    (h : Balanced t depth (.jumpIfFalse offset :: rest)) :
    1 ≤ depth ∧ Balanced t (depth - 1) rest ∧ Balanced t (depth - 1) (rest.drop offset) := by
  cases h with
  | jumpIfFalse hyes hno => exact ⟨Nat.le_add_left _ _, hyes, hno⟩
  | plain h => cases h

namespace Machine

variable {c : Code} {s : StateCode} {t : FunctionTable} {limit : ℕ} {r : Registers}
  {rest : List Op}

lemma push_safe (hsize : r.locals.size = s.locals.size)
    (htransition : ∀ i, r.transition = some i → i < c.states.size)
    (h : Balanced c.toTables (r.stack.length + 1) rest) (v : Value) :
    (push limit r v).1.Safe c s t rest (push limit r v).2 := by
  unfold push
  split
  · trivial
  · exact ⟨hsize, htransition, h⟩

variable (limit) in
lemma call_safe (hresolved : ∀ f ∈ c.functions.symbols.keys, (t.resolve? f).isSome)
    {function arity : ℕ} (hfunction : function < c.functions.size) {names : List String}
    (hsize : r.locals.size = s.locals.size)
    (htransition : ∀ i, r.transition = some i → i < c.states.size)
    (hdepth : arity + names.length ≤ r.stack.length)
    (h : Balanced c.toTables (r.stack.length - (arity + names.length) + 1) rest) (w : Storage) :
    (call (Stepper.host c (c.resolved t)) limit function arity names r w).1.Safe c s t rest
      (call (Stepper.host c (c.resolved t)) limit function arity names r w).2.1 := by
  obtain ⟨f, hf, hmem⟩ := SymbolTable.exists_slot? hfunction
  obtain ⟨g, hg⟩ := Option.isSome_iff_exists.1 (hresolved f hmem)
  have hpop : ∀ {n : ℕ} {stack : List Value}, n ≤ stack.length →
      popMany? n stack = some ((stack.take n).reverse, stack.drop n) := fun hn => by
    rw [popMany?, if_neg (by omega)]
  have hcall : ∀ positional keywords,
      (Stepper.host c (c.resolved t)).call w function positional keywords =
        (t.apply f positional keywords, w) := fun positional keywords => by
    rw [← Code.callFunction_eq hresolved hf]
    rfl
  have hbelow : ((r.stack.drop names.length).drop arity).length =
      r.stack.length - (arity + names.length) := by
    rw [List.length_drop, List.length_drop]
    omega
  rw [← hbelow] at h
  unfold call
  rw [hpop (by omega)]
  dsimp only
  rw [hpop (by rw [List.length_drop]; omega)]
  dsimp only
  rw [hcall]
  cases happly : t.apply f ((r.stack.drop names.length).take arity).reverse
      (names.zip (r.stack.take names.length).reverse) with
  | error e => exact FunctionTable.expected_of_apply hg happly
  | ok v =>
    exact push_safe (r := { r with stack := (r.stack.drop names.length).drop arity }) hsize
      htransition h v

/-- **One operation is carried out safely.** -/
theorem act_safe (hresolved : ∀ f ∈ c.functions.symbols.keys, (t.resolve? f).isSome)
    (hnext : s.next < c.states.size) {op : Op}
    (hop : op.InRange c.toTables s.locals.size c.states.size) (hr : r.Safe c s (op :: rest))
    (w : Storage) :
    (act c s (Stepper.host c (c.resolved t)) limit op r w).1.Safe c s t rest
      (act c s (Stepper.host c (c.resolved t)) limit op r w).2.1 := by
  obtain ⟨hsize, htransition, hbalanced⟩ := hr
  obtain ⟨stack, locals, transition⟩ := r
  cases op with
  | literal i =>
    have hi : c.literals[i]? = some c.literals[i] := Array.getElem?_eq_getElem hop
    simp only [act, hi]
    exact push_safe hsize htransition (hbalanced.plain_inv rfl).2 _
  | loadPersistent i =>
    simp only [act]
    split
    · trivial
    · exact push_safe hsize htransition (hbalanced.plain_inv rfl).2 _
  | loadLocal i =>
    have hlt : i < locals.size := Nat.lt_of_lt_of_eq hop hsize.symm
    have hi : locals[i]? = some locals[i] := Array.getElem?_eq_getElem hlt
    simp only [act, hi]
    cases locals[i] with
    | none => trivial
    | some v => exact push_safe hsize htransition (hbalanced.plain_inv rfl).2 _
  | storePersistent i =>
    obtain ⟨hdepth, hrest⟩ := hbalanced.plain_inv rfl
    cases stack with
    | nil => simp at hdepth
    | cons v stack => exact ⟨hsize, htransition, hrest⟩
  | storeLocal i =>
    obtain ⟨hdepth, hrest⟩ := hbalanced.plain_inv rfl
    cases stack with
    | nil => simp at hdepth
    | cons v stack =>
      have hlt : i < locals.size := Nat.lt_of_lt_of_eq hop hsize.symm
      simp only [act, hlt, if_true]
      exact ⟨by simpa using hsize, htransition, hrest⟩
  | unary op =>
    obtain ⟨hdepth, hrest⟩ := hbalanced.plain_inv rfl
    cases stack with
    | nil => simp at hdepth
    | cons v stack =>
      simp only [act]
      cases v.unary op with
      | ok a => exact ⟨hsize, htransition, hrest⟩
      | error e => trivial
  | binary op =>
    obtain ⟨hdepth, hrest⟩ := hbalanced.plain_inv rfl
    rcases stack with _ | ⟨b, _ | ⟨a, stack⟩⟩
    · simp at hdepth
    · simp at hdepth
    · simp only [act]
      cases a.binary op b with
      | ok v => exact ⟨hsize, htransition, hrest⟩
      | error e => trivial
  | jumpIfFalse offset =>
    obtain ⟨hdepth, hyes, hno⟩ := hbalanced.jumpIfFalse_inv
    cases stack with
    | nil => simp at hdepth
    | cons v stack =>
      simp only [act]
      cases v.truth with
      | error e => trivial
      | ok b =>
        cases b with
        | true => exact ⟨hsize, htransition, hyes⟩
        | false => exact ⟨hsize, htransition, hno⟩
  | jump offset => exact ⟨hsize, htransition, hbalanced.jump_inv⟩
  | call function arity keywords =>
    obtain ⟨hfunction, names, hnames⟩ := hop
    have heffect : (Op.call function arity keywords).effect? c.toTables =
        some (arity + names.length, 1) := by
      rw [Op.effect?, hnames, Option.map_some]
    obtain ⟨hdepth, hrest⟩ := hbalanced.plain_inv heffect
    have hsafe := call_safe limit hresolved hfunction hsize htransition hdepth hrest w
    cases keywords with
    | none =>
      obtain rfl : [] = names := Option.some.inj hnames
      exact hsafe
    | some k =>
      have hk : c.keywordSets[k]? = some names := hnames
      simp only [act, hk]
      exact hsafe
  | emit component timeId =>
    obtain ⟨hdepth, hrest⟩ := hbalanced.plain_inv rfl
    rcases stack with _ | ⟨v, _ | ⟨time, stack⟩⟩
    · simp at hdepth
    · simp at hdepth
    · simp only [act]
      cases time.toScalar with
      | ok time => exact ⟨hop, fun _ _ _ _ _ => ⟨hsize, htransition, hrest⟩⟩
      | error e => trivial
  | abort => exact ⟨trivial, by simp⟩
  | raise i => exact ⟨hop, by simp⟩
  | transition next =>
    refine ⟨hsize, fun i hi => ?_, (hbalanced.plain_inv rfl).2⟩
    obtain rfl : next = i := Option.some.inj hi
    exact hop
  | complete =>
    refine ⟨?_, by simp⟩
    cases transition with
    | none => exact hnext
    | some i => exact htransition i rfl

end Machine

/-! ### Frames -/

def Frame.Safe (c : Code) (f : Frame) : Prop :=
  ∃ s, c.state? f.state = some s ∧ f.toRegisters.Safe c s (s.ops.toList.drop f.ip)

/-- What a frame hands over exists, or it fails as it may; if it emits, it can go on. -/
def Frame.Handover (c : Code) (t : FunctionTable) (f : Frame) : Except MachineError Yield → Prop
  | .ok y => y.InRange c ∧
    ∀ component timeId time value, y = .emitted component timeId time value → f.Safe c
  | .error e => e.Expected t

lemma Code.exists_state? {c : Code} {i : ℕ} (hi : i < c.states.size) : ∃ s, c.state? i = some s :=
  ⟨_, by rw [Code.state?, Array.getElem?_eq_getElem hi, Option.map_some]⟩

section

variable {c : Code} {t : FunctionTable} (hc : c.Sound)
  (hresolved : ∀ f ∈ c.functions.symbols.keys, (t.resolve? f).isSome)

include hc

lemma Frame.start_safe {i : ℕ} (hi : i < c.states.size) :
    ∃ f, Frame.start c i = .ok f ∧ f.Safe c := by
  obtain ⟨s, hs⟩ := Code.exists_state? hi
  have hstart : Frame.start c i =
      .ok { state := i, locals := Array.replicate s.locals.size none } := by
    rw [Frame.start, hs]
  exact ⟨_, hstart, s, hs, by simp, by simp, (hc.state i s hs).balanced⟩

include hresolved

lemma Machine.act_safe_at {s : StateCode} {f : Frame} (hs : c.state? f.state = some s)
    (hr : f.toRegisters.Safe c s (s.ops.toList.drop f.ip)) (hip : f.ip < s.ops.size) (limit : ℕ)
    (w : Storage) :
    (act c s (Stepper.host c (c.resolved t)) limit s.ops[f.ip] f.toRegisters w).1.Safe c s t
      (s.ops.toList.drop (f.ip + 1))
      (act c s (Stepper.host c (c.resolved t)) limit s.ops[f.ip] f.toRegisters w).2.1 := by
  have hsound := hc.state _ _ hs
  rw [List.drop_eq_getElem_cons (by simpa using hip), Array.getElem_toList] at hr
  exact act_safe hresolved hsound.next
    (hsound.inRange f.ip _ (Array.getElem?_eq_getElem hip)) hr w

lemma Machine.resumeIn_safe {s : StateCode} {limit : ℕ} (f : Frame) (w : Storage)
    (hs : c.state? f.state = some s)
    (hr : f.toRegisters.Safe c s (s.ops.toList.drop f.ip)) :
    let q := resumeIn c s (Stepper.host c (c.resolved t)) limit f w
    q.2.1.state = f.state ∧ q.2.1.Handover c t q.1 := by
  fun_induction resumeIn c s (Stepper.host c (c.resolved t)) limit f w with
  | case1 f w hip skip r w₁ h ih =>
    have hsafe := act_safe_at hc hresolved hs hr hip limit w
    rw [h] at hsafe
    refine ih hs ?_
    rw [← List.drop_drop]
    exact hsafe
  | case2 f w hip y r w₁ h =>
    have hsafe := act_safe_at hc hresolved hs hr hip limit w
    rw [h] at hsafe
    exact ⟨rfl, hsafe.1, fun _ _ _ _ hy => ⟨s, hs, hsafe.2 _ _ _ _ hy⟩⟩
  | case3 f w hip e r w₁ h =>
    have hsafe := act_safe_at hc hresolved hs hr hip limit w
    rw [h] at hsafe
    exact ⟨rfl, hsafe⟩
  | case4 f w hip =>
    -- the stack is balanced up to a last operation, so there is one
    exact absurd (List.drop_eq_nil_of_le (by simpa using hip)) hr.balanced.ne_nil

/-- **A frame is resumed safely.** -/
theorem Frame.Safe.resume {f : Frame} (hf : f.Safe c) (limit : ℕ) (w : Storage) :
    let q := Machine.resume c (Stepper.host c (c.resolved t)) limit f w
    q.2.1.state = f.state ∧ q.2.1.Handover c t q.1 := by
  obtain ⟨s, hs, hr⟩ := hf
  rw [Machine.resume, hs]
  exact Machine.resumeIn_safe hc hresolved f w hs hr

end

/-! ### Steppers -/

/-- What a stepper tells its caller names things that exist, and no failure is one of the machine
itself. -/
def ItemSound (c : Code) (t : FunctionTable) : Stepper.Item → Prop
  | .ok (.emitted component timeId _ _) =>
    component ∈ c.labels.symbols.keys ∧ timeId ∈ c.labels.symbols.keys
  | .ok (.stateCompleted state) => state ∈ c.states.keys
  | .error (.stepFailed state) => state ∈ c.states.keys
  | .error (.raised kind message) => (kind, message) ∈ c.raises
  | .error (.execution e) => e.Expected t
  | .error .notSetUp | .error .terminated => True
  | .error .danglingRaise => False

namespace Stepper

structure Safe (c : Code) (t : FunctionTable) (s : Stepper) : Prop where
  code : s.code = c
  functions : s.functions = c.resolved t
  current : ∀ i, s.current = some i → i < c.states.size

def Progress.Safe (c : Code) (t : FunctionTable) : Progress → Prop
  | running f => f.Safe c
  | failed e => ItemSound c t (.error e)
  | done => True

section

variable {c : Code} {t : FunctionTable} {s : Stepper}

lemma name_mem {table : SymbolTable} {i : ℕ} (h : i < table.size) :
    table.name i ∈ table.symbols.keys := by
  obtain ⟨x, hx, hmem⟩ := SymbolTable.exists_slot? h
  rwa [SymbolTable.name_of_slot? hx]

variable (hc : c.Sound)

include hc

lemma stateName_mem {i : ℕ} {sc : StateCode} (h : c.state? i = some sc) :
    ((c.state? i).map StateCode.name).getD "" ∈ c.states.keys := by
  rw [h, Option.map_some, Option.getD_some]
  exact List.mem_iff_getElem?.2 ⟨i, hc.name i sc h⟩

omit hc in
variable (c t) in
lemma Safe.new (config : StepperConfig) : Safe c t
    { code := c, functions := c.resolved t, config, storage := .ofSize c.persistent.size } :=
  ⟨rfl, rfl, by simp⟩

lemma Safe.setUp (h : s.Safe c t) (time stepSize : Float) (context : List (String × Value)) :
    (s.setUp time stepSize context).2.Safe c t := by
  unfold Stepper.setUp
  dsimp only
  split
  · exact ⟨h.code, h.functions, h.current⟩
  · refine ⟨h.code, h.functions, fun i hi => ?_⟩
    obtain rfl := Option.some.inj hi
    rw [h.code]
    exact hc.initial

lemma Safe.start (h : s.Safe c t) : s.start.1.Safe c t ∧ s.start.2.Safe c t := by
  unfold Stepper.start
  split
  · exact ⟨trivial, h⟩
  · split
    · exact ⟨trivial, h⟩
    · rename_i i hi
      obtain ⟨f, hf, hsafe⟩ := Frame.start_safe hc (h.current i hi)
      rw [h.code, hf]
      exact ⟨hsafe, h⟩

lemma Safe.react (h : s.Safe c t) {f : Frame} {sc : StateCode} (hs : c.state? f.state = some sc)
    {result : Except MachineError Yield} (hresult : f.Handover c t result) :
    ItemSound c t (s.react f result).1 ∧ (s.react f result).2.1.Safe c t ∧
      (s.react f result).2.2.Safe c t := by
  have hname := stateName_mem hc hs
  obtain ⟨rfl, hfunctions, hcurrent⟩ := h
  unfold Stepper.react
  split
  · obtain ⟨⟨hcomponent, htimeId⟩, hf⟩ := hresult
    exact ⟨⟨name_mem hcomponent, name_mem htimeId⟩, hf _ _ _ _ rfl, rfl, hfunctions, hcurrent⟩
  · refine ⟨hname, trivial, rfl, hfunctions, fun i hi => ?_⟩
    obtain rfl := Option.some.inj hi
    exact hresult.1
  · exact ⟨hname, trivial, rfl, hfunctions, hcurrent⟩
  · rename_i i
    have hlt : i < s.code.raises.size := hresult.1
    refine ⟨?_, trivial, rfl, hfunctions, hcurrent⟩
    rw [Array.getElem?_eq_getElem hlt]
    exact Array.getElem_mem hlt
  · exact ⟨hresult, trivial, rfl, hfunctions, hcurrent⟩

/-- **A step is carried on safely.** -/
theorem Safe.advance (hresolved : ∀ f ∈ c.functions.symbols.keys, (t.resolve? f).isSome)
    (h : s.Safe c t) {progress : Progress} (hp : progress.Safe c t) :
    (∀ item, (s.advance progress).1 = some item → ItemSound c t item) ∧
      (s.advance progress).2.1.Safe c t ∧ (s.advance progress).2.2.Safe c t := by
  cases progress with
  | running f =>
    have hresume := Frame.Safe.resume hc hresolved hp s.config.stackLimit s.storage
    obtain ⟨sc, hs, -⟩ := hp
    obtain ⟨rfl, hfunctions, hcurrent⟩ := h
    rw [← hfunctions] at hresume
    obtain ⟨hstate, hresult⟩ := hresume
    rw [← hstate] at hs
    have hafter : Safe s.code t { s with storage := (Machine.resume s.code
        (host s.code s.functions) s.config.stackLimit f s.storage).2.2 } :=
      ⟨rfl, hfunctions, hcurrent⟩
    obtain ⟨hitem, hprogress, hstepper⟩ := hafter.react hc hs hresult
    exact ⟨fun item h => Option.some.inj h ▸ hitem, hprogress, hstepper⟩
  | failed e => exact ⟨fun item hitem => Option.some.inj hitem ▸ hp, trivial, h⟩
  | done => exact ⟨fun item hitem => (by cases hitem), trivial, h⟩

end

end Stepper

/-! ### Streams -/

namespace Stream

open Stepper

variable {c : Code} {t : FunctionTable} {s : Stepper} (hc : c.Sound)
  (hresolved : ∀ f ∈ c.functions.symbols.keys, (t.resolve? f).isSome)

include hc hresolved

lemma next_safe {stream : Stream} (h : s.Safe c t) (hp : stream.progress.Safe c t) :
    (∀ item, (stream.next s).1 = some item → ItemSound c t item) ∧
      (stream.next s).2.1.progress.Safe c t ∧ (stream.next s).2.2.Safe c t := by
  unfold next
  split
  · exact ⟨fun item hitem => (by cases hitem), hp, h⟩
  · split
    · exact ⟨fun item hitem => (by cases hitem), hp, h⟩
    · obtain ⟨hbegun, hstepper⟩ := h.start hc
      exact hstepper.advance hc hresolved hbegun
    · exact h.advance hc hresolved hp

/-- **All that a stream tells is sound**, however often it is asked. -/
theorem poll_safe (n : ℕ) {stream : Stream} (h : s.Safe c t) (hp : stream.progress.Safe c t) :
    (∀ item, some item ∈ (poll n stream s).1 → ItemSound c t item) ∧
      (poll n stream s).2.Safe c t := by
  induction n generalizing stream s with
  | zero => exact ⟨fun item hitem => (by cases hitem), h⟩
  | succ n ih =>
    obtain ⟨hitem, hprogress, hstepper⟩ := next_safe hc hresolved h hp
    obtain ⟨hitems, hafter⟩ := ih hstepper hprogress
    refine ⟨fun item hmem => ?_, hafter⟩
    rcases List.mem_cons.1 hmem with heq | hmem
    · exact hitem item heq.symm
    · exact hitems item hmem

end Stream

/-! ### Histories -/

namespace Stepper

/-- What a stepper for the code has become in the hands of its caller: it was made, set up any
number of times, with success or not, its step size was changed, and it was run for some steps,
which were carried on as long as the caller liked. -/
inductive Reached (c : Code) (t : FunctionTable) (config : StepperConfig) : Stepper → Prop where
  | create {s : Stepper} (h : create c t config = .ok s) : Reached c t config s
  | setUp {s : Stepper} (h : Reached c t config s) (time stepSize : Float)
      (context : List (String × Value)) : Reached c t config (s.setUp time stepSize context).2
  | setStepSize {s : Stepper} (h : Reached c t config s) (stepSize : Float) :
      Reached c t config (s.setStepSize stepSize)
  | step {s : Stepper} (h : Reached c t config s) (n : ℕ) :
      Reached c t config (Stream.poll n s.step.1 s.step.2).2
  | run {s : Stepper} (h : Reached c t config s) (steps n : ℕ) :
      Reached c t config (Stream.poll n (run steps) s).2

lemma Reached.resolved {c : Code} {t : FunctionTable} {config : StepperConfig} {s : Stepper}
    (h : Reached c t config s) : ∀ f ∈ c.functions.symbols.keys, (t.resolve? f).isSome := by
  induction h with
  | create h => exact (create_eq_ok h).2
  | setUp _ _ _ _ ih => exact ih
  | setStepSize _ _ ih => exact ih
  | step _ _ ih => exact ih
  | run _ _ _ ih => exact ih

lemma Reached.safe {c : Code} (hc : c.Sound) {t : FunctionTable} {config : StepperConfig}
    {s : Stepper} (h : Reached c t config s) : s.Safe c t := by
  induction h with
  | create h =>
    obtain ⟨rfl, -⟩ := create_eq_ok h
    exact .new c t config
  | setUp h time stepSize context ih => exact ih.setUp hc time stepSize context
  | setStepSize h stepSize ih => exact ⟨ih.code, ih.functions, ih.current⟩
  | step h n ih =>
    obtain ⟨hprogress, hstepper⟩ := ih.start hc
    exact (Stream.poll_safe hc h.resolved n hstepper hprogress).2
  | run h steps n ih =>
    have hprogress : (Stepper.run steps).progress.Safe c t := trivial
    exact (Stream.poll_safe hc h.resolved n ih hprogress).2

end Stepper

/-- **Generated code is safe to execute.** Every operand of the code of an accepted program is in
range, every jump ends at an operation of its state, and `complete` stands at the end of each state
and nowhere else. A stepper for the code, whatever was done with it before, tells only of things
that exist, and no step ends with a failure of the machine itself. -/
theorem generated_code_safe {instructions : InstructionSet} {states : List State}
    {initial : String} {p : Program} (hp : Program.create instructions states initial = .ok p)
    {reserved : List String} {c : Code} (hc : Code.ofProgram reserved p = .ok c) :
    c.Sound ∧ ∀ t config s, Stepper.Reached c t config s → ∀ steps n item,
      some item ∈ (Stream.poll n s.step.1 s.step.2).1 ∨
        some item ∈ (Stream.poll n (Stepper.run steps) s).1 → ItemSound c t item := by
  have hacc := Program.accepted_of_create hp
  have hsound := (Code.of_ofProgram hacc.name_eq hc).sound hacc
  refine ⟨hsound, fun t config s hs steps n item hitem => ?_⟩
  have hsafe := hs.safe hsound
  rcases hitem with hitem | hitem
  · obtain ⟨hprogress, hstepper⟩ := hsafe.start hsound
    exact (Stream.poll_safe hsound hs.resolved n hstepper hprogress).1 item hitem
  · have hprogress : (Stepper.run steps).progress.Safe c t := trivial
    exact (Stream.poll_safe hsound hs.resolved n hsafe hprogress).1 item hitem

def stepOrRaise : InstructionSet :=
  (InstructionSet.empty.addAll [
    ⟨"try", ∅, .assign "<p>y" (.call "<func>f" [] [("x", .var "<t>")])⟩,
    ⟨"test", .ofList ["try"], .branch (.binary .lt (.var "<p>y") (.var "<dt>"))
      (.ofList ["again"]) (.ofList ["fail"])⟩,
    ⟨"again", ∅, .transition "s"⟩,
    ⟨"fail", ∅, .raise "Diverged" "the step is too long"⟩]).toOption.getD .empty

def identityTable : FunctionTable := .ofList [("f", {
  signature := some { params := ["x"] }
  body := fun args => .ok (args.headD (.scalar 0)) })]

theorem generated_code_safe_stepOrRaise : ∃ p c s,
    Program.create stepOrRaise [⟨"s", ["test"], "s"⟩] "s" = .ok p ∧
    Code.ofProgram defaultReserved p = .ok c ∧ Stepper.Reached c identityTable {} s ∧
    c.Sound ∧ ∀ steps n item,
      some item ∈ (Stream.poll n s.step.1 s.step.2).1 ∨
        some item ∈ (Stream.poll n (Stepper.run steps) s).1 → ItemSound c identityTable item := by
  have hsome : ((Program.create stepOrRaise [⟨"s", ["test"], "s"⟩] "s").toOption.bind fun p =>
      (Code.ofProgram defaultReserved p).toOption.bind fun c =>
        (Stepper.create c identityTable {}).toOption).isSome = true := by
    decide +kernel
  obtain ⟨s, hs⟩ := Option.isSome_iff_exists.1 hsome
  obtain ⟨p, hp, hs⟩ := Option.bind_eq_some_iff.1 hs
  obtain ⟨c, hc, hs⟩ := Option.bind_eq_some_iff.1 hs
  rw [toOption_eq_some] at hp hc hs
  have hreached := (Stepper.Reached.create hs).setUp 0 1 [("<p>y", .scalar 1)]
  have hsafe := generated_code_safe hp hc
  exact ⟨p, c, _, hp, hc, hreached, hsafe.1, hsafe.2 _ _ _ hreached⟩

end TimeMarch
