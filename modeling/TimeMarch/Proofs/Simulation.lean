import TimeMarch.Proofs.Evaluation
import TimeMarch.Proofs.Resolution
import TimeMarch.Proofs.Translation

/-!
# Code Does What Its Schedule Means

The machine keeps variables in slots and the interpreter keeps them by name. As long as the two hold
the same values, code for expressions puts on the stack what the expressions evaluate to, and code
for steps goes where the walk over the steps goes. This is exact where the interpreter minds the
bound of the stack; else the code may also run out of stack.
-/

namespace TimeMarch

namespace Code

def contents (c : Code) (w : Storage) (x : String) : Option Value :=
  (c.persistent.slot? x).bind w.get?

/-- What a yield or a failure means by name, unless the run goes on behind it. -/
def ending (c : Code) : Except MachineError Yield → Option Ending
  | .ok (.emitted _ _ _ _) => none
  | .ok (.completed next) => (c.state? next).map fun s => .completed s.name
  | .ok .aborted => some .aborted
  | .ok (.raised i) => c.raises[i]?.map fun r => .raised r.1 r.2
  | .error e => some (.failed e)

end Code

/-- The storage holds the persistent variables, and beyond their slots what it held at first. -/
structure Stored (c : Code) (w₀ : Storage) (persistent : String → Option Value) (w : Storage) :
    Prop where
  contents : ∀ x, c.contents w x = persistent x
  beyond : ∀ i, c.persistent.size ≤ i → w.get? i = w₀.get? i

/-- The machine holds in slots what the interpreter holds by name. -/
structure Mirrors (c : Code) (s : StateCode) (w₀ : Storage) (m : Memory) (r : Registers)
    (w : Storage) : Prop extends Stored c w₀ m.persistent w where
  size : r.locals.size = s.locals.size
  ofState : ∀ x i, s.locals.slot? x = some i → r.locals[i]? = some (m.ofState x)
  transition : m.transition.map c.stateIndex? = r.transition.map some

section

variable {p : Program} {c : Code} {s : StateCode} {t : FunctionTable} {limit : ℕ}
  {w₀ w : Storage} {m : Memory} {r : Registers}

namespace Mirrors

lemma withStack (h : Mirrors c s w₀ m r w) (stack : List Value) :
    Mirrors c s w₀ m { r with stack } w :=
  ⟨h.toStored, h.size, h.ofState, h.transition⟩

lemma persistent_eq (h : Mirrors c s w₀ m r w) {x : String} {i : ℕ}
    (hi : c.persistent.slot? x = some i) : w.get? i = m.persistent x := by
  rw [← h.contents x, Code.contents, hi, Option.bind_some]

end Mirrors

variable (c s t limit) in
abbrev playWith (ops : List Op) (r : Registers) (w : Storage) : Trace :=
  Machine.play c s (Stepper.host c (c.resolved t)) limit ops r w

/-! ### Expressions -/

lemma Mirrors.load {g : Setting} (h : Mirrors c s w₀ m r w) {x : String} {slot : Lowering.Slot}
    (hslot : (c.scope s).slot? x = some slot) (rest : List Op) :
    playWith c s g.functions g.limit (slot.load :: rest) r w =
      Trace.given ((Expr.var x).evalIn g m r.stack.length) w fun v =>
        playWith c s g.functions g.limit rest { r with stack := v :: r.stack } w := by
  rw [Expr.evalIn, Memory.get?]
  unfold Scope.slot? at hslot
  split at hslot
  · rename_i hpersistent
    obtain ⟨i, hi, rfl⟩ := Option.map_eq_some_iff.1 hslot
    have hname : c.persistent.name i = x := SymbolTable.name_of_slot? hi
    rw [if_pos hpersistent, ← h.persistent_eq hi, ← hname]
    exact Machine.play_loadPersistent i rest r w
  · rename_i hlocal
    obtain ⟨i, hi, rfl⟩ := Option.map_eq_some_iff.1 hslot
    have hname : s.locals.name i = x := SymbolTable.name_of_slot? hi
    rw [if_neg hlocal, ← hname]
    exact Machine.play_loadLocal (hname ▸ h.ofState x i hi) rest w

/-- **Code for expressions puts their values on the stack**, or fails as they do. -/
theorem ExprCode.play_eq {g : Setting} {literals : List Value} {es : List Expr} {code : List Op}
    (hread : ∀ v ∈ literals, c.read v ∈ literals → c.read v = g.read v)
    (hresolved : ∀ f ∈ c.functions.symbols.keys, (g.functions.resolve? f).isSome)
    (h : ExprCode literals (c.scope s) es code) (hm : Mirrors c s w₀ m r w) (rest : List Op) :
    playWith c s g.functions g.limit (code ++ rest) r w =
      Trace.given (Expr.evalAllIn g m es r.stack.length) w fun vs =>
        playWith c s g.functions g.limit rest { r with stack := vs.reverse ++ r.stack } w := by
  induction h generalizing r rest with
  | nil => rfl
  | @literal i v es k hi hv hmem _ ih =>
    have hi : c.literals[i]? = some (g.read v) := by
      rw [← hread v hv hmem]
      exact hi
    simp only [Expr.evalAllIn, Expr.evalIn, Trace.given_bind, Trace.given_pure]
    rw [List.cons_append, playWith, Machine.play_literal hi]
    exact Trace.given_congr fun u _ => by simpa using ih (hm.withStack (u :: r.stack)) rest
  | @var x slot es k hslot _ ih =>
    simp only [Expr.evalAllIn, Trace.given_bind, Trace.given_pure]
    rw [List.cons_append, hm.load hslot]
    exact Trace.given_congr fun u _ => by simpa using ih (hm.withStack (u :: r.stack)) rest
  | @unary op x code es k _ _ ihx ih =>
    simp only [Expr.evalAllIn, Expr.evalIn, Trace.given_bind, Trace.given_pure,
      Trace.given_ok] at ihx ⊢
    rw [List.append_assoc, ihx hm]
    refine Trace.given_congr fun v _ => ?_
    refine (Machine.play_unary op (k ++ rest) r w v r.stack).trans ?_
    exact Trace.given_congr fun u _ => by simpa using ih (hm.withStack (u :: r.stack)) rest
  | @binary op l r' code es k _ _ ihlr ih =>
    simp only [Expr.evalAllIn, Expr.evalIn, Trace.given_bind, Trace.given_pure,
      Trace.given_ok] at ihlr ⊢
    rw [List.append_assoc, ihlr hm]
    refine Trace.given_congr fun a _ => Trace.given_congr fun b _ => ?_
    refine (Machine.play_binary op (k ++ rest) r w a b r.stack).trans ?_
    exact Trace.given_congr fun u _ => by simpa using ih (hm.withStack (u :: r.stack)) rest
  | @call f args keywords i names code es k _ hf hnames _ ihargs ih =>
    simp only [Expr.given_evalAllIn_append, Expr.given_evalAllIn_keywords] at ihargs
    simp only [Expr.evalAllIn, Expr.evalIn, Trace.given_bind, Trace.given_pure]
    rw [List.append_assoc, ihargs hm]
    refine Trace.given_congr fun vs hvs => Trace.given_congr fun named hnamed => ?_
    have hkeys := Expr.names_evalKeywordsIn hnamed
    have hzip : (keywords.map Prod.fst).zip (named.map Prod.snd) = named := by
      rw [← hkeys, List.zip_map']
      simp
    have hcall : (Stepper.host c (c.resolved g.functions)).call w i vs
        ((keywords.map Prod.fst).zip (named.map Prod.snd)) = (g.functions.apply f vs named, w) := by
      rw [hzip, ← Code.callFunction_eq hresolved hf]
      rfl
    have hlength : (named.map Prod.snd).length = (keywords.map Prod.fst).length := by
      rw [← hkeys]
      simp
    rw [List.reverse_append, List.append_assoc]
    refine (Machine.play_call hnames (Expr.length_evalAllIn hvs) hlength hcall (k ++ rest) r
      r.stack).trans ?_
    rw [Trace.given_bind]
    refine Trace.given_congr fun v _ => Trace.given_congr fun u _ => ?_
    simpa using ih (hm.withStack (u :: r.stack)) rest
  | @cond c' y n code yes no es k _ _ _ _ ihc ihy ihn ih =>
    simp only [Expr.evalAllIn, Expr.evalIn, Trace.given_bind, Trace.given_pure,
      Trace.given_ok] at ihc ihy ihn ⊢
    simp only [List.append_assoc, List.cons_append]
    rw [ihc hm]
    refine Trace.given_congr fun v _ => ?_
    refine (Machine.play_jumpIfFalse _ _ r w v r.stack).trans ?_
    refine Trace.given_congr fun b _ => ?_
    cases b with
    | true =>
      refine (ihy hm _).trans (Trace.given_congr fun a _ => ?_)
      rw [playWith, Machine.play_jump, List.drop_left]
      simpa using ih (hm.withStack (a :: r.stack)) rest
    | false =>
      simp only [Bool.false_eq_true, if_false, drop_then]
      refine (ihn hm _).trans (Trace.given_congr fun a _ => ?_)
      simpa using ih (hm.withStack (a :: r.stack)) rest

lemma ExprCode.play_singleton {g : Setting} {literals : List Value} {e : Expr} {code : List Op}
    (hread : ∀ v ∈ literals, c.read v ∈ literals → c.read v = g.read v)
    (hresolved : ∀ f ∈ c.functions.symbols.keys, (g.functions.resolve? f).isSome)
    (h : ExprCode literals (c.scope s) [e] code) (hm : Mirrors c s w₀ m r w) (rest : List Op) :
    playWith c s g.functions g.limit (code ++ rest) r w =
      Trace.given (e.evalIn g m r.stack.length) w fun v =>
        playWith c s g.functions g.limit rest { r with stack := v :: r.stack } w := by
  have hplay := h.play_eq hread hresolved hm rest
  simp only [Expr.evalAllIn, Trace.given_bind, Trace.given_pure, Trace.given_ok] at hplay
  exact hplay

/-! ### Steps -/

lemma Stored.set (h : Stored c w₀ m.persistent w) {x : String} {i : ℕ}
    (hi : c.persistent.slot? x = some i) (v : Value) :
    Stored c w₀ (fun y => if x = y then some v else m.persistent y) (w.set i v) := by
  refine ⟨fun y => ?_, fun j hj => ?_⟩
  · simp only [← h.contents y, Code.contents]
    by_cases hxy : x = y
    · subst hxy
      simp [hi, Storage.get?_set]
    · rw [if_neg hxy]
      cases hy : c.persistent.slot? y with
      | none => rfl
      | some j =>
        -- another name has another slot
        have hij : i ≠ j := fun hij => hxy (SymbolTable.slot?_inj hi (hij ▸ hy))
        simp [Storage.get?_set, hij]
  · have hlt := SymbolTable.slot?_lt hi
    rw [Storage.get?_set, if_neg (by omega), h.beyond j hj]

variable (c s t limit w₀) in
/-- A run goes exactly where a walk goes: it is where the walk is, with nothing on the stack and the
given operations left, or both have ended in the same way and before the state is complete. -/
inductive Tracks (rest : List Op) : Walk → Trace → Prop where
  | goes {events : List Event} {m : Memory} {r : Registers} {w : Storage}
      (hm : Mirrors c s w₀ m r w) (hstack : r.stack = []) :
      Tracks rest ⟨events, m, none⟩ ((playWith c s t limit rest r w).after events)
  | ends {events : List Event} {m : Memory} {w : Storage} {result : Except MachineError Yield}
      {e : Ending} (hending : c.ending result = some e) (hne : ∀ next, e ≠ .completed next)
      (hw : Stored c w₀ m.persistent w) : Tracks rest ⟨events, m, some e⟩ ⟨events, result, w⟩

namespace Tracks

variable {rest : List Op} {walk : Walk} {u v : Trace}

lemma stay (hm : Mirrors c s w₀ m r w) (hstack : r.stack = []) :
    Tracks c s t limit w₀ rest (.stay m) (playWith c s t limit rest r w) := by
  have h : Tracks c s t limit w₀ rest ⟨[], m, none⟩ _ := goes hm hstack
  rwa [Trace.after_nil] at h

lemma after (h : Tracks c s t limit w₀ rest walk u) (events : List Event) :
    Tracks c s t limit w₀ rest { walk with events := events ++ walk.events } (u.after events) := by
  cases h with
  | goes hm hstack =>
    rw [← Trace.after_append]
    exact goes hm hstack
  | ends hending hne hw => exact ends hending hne hw

lemma congr {rest' : List Op} (h : Tracks c s t limit w₀ rest walk u)
    (hrest : ∀ r w, playWith c s t limit rest r w = playWith c s t limit rest' r w) :
    Tracks c s t limit w₀ rest' walk u := by
  cases h with
  | goes hm hstack =>
    rw [hrest]
    exact goes hm hstack
  | ends hending hne hw => exact ends hending hne hw

lemma andThen {rest' : List Op} {next : Memory → Walk} (h : Tracks c s t limit w₀ rest' walk u)
    (hnext : ∀ m r w, Mirrors c s w₀ m r w → r.stack = [] →
      Tracks c s t limit w₀ rest (next m) (playWith c s t limit rest' r w)) :
    Tracks c s t limit w₀ rest (walk.andThen next) u := by
  cases h with
  | goes hm hstack => exact (hnext _ _ _ hm hstack).after _
  | ends hending hne hw => exact ends hending hne hw

lemma compute {α : Type} {x : Except MachineError α} {next : α → Walk} {f : α → Trace}
    (hw : Stored c w₀ m.persistent w)
    (h : ∀ a, x = .ok a → Tracks c s t limit w₀ rest (next a) (f a)) :
    Tracks c s t limit w₀ rest (.compute m x next) (Trace.given x w f) := by
  cases x with
  | ok a => exact h a rfl
  | error e => exact ends rfl (by simp) hw

end Tracks

lemma Mirrors.store (h : Mirrors c s w₀ m r w) {x : String} {slot : Lowering.Slot}
    (hslot : (c.scope s).slot? x = some slot) (v : Value) (rest : List Op) :
    Tracks c s t limit w₀ rest (.stay (m.set x v))
      (playWith c s t limit (slot.store :: rest) { r with stack := [v] } w) := by
  unfold Scope.slot? at hslot
  split at hslot
  · rename_i hpersistent
    obtain ⟨i, hi, rfl⟩ := Option.map_eq_some_iff.1 hslot
    rw [Memory.set, if_pos hpersistent]
    have hstep : playWith c s t limit (.storePersistent i :: rest) { r with stack := [v] } w =
        playWith c s t limit rest { r with stack := [] } (w.set i v) := Machine.play_next rfl
    rw [Lowering.Slot.store, hstep]
    exact .stay ⟨h.toStored.set hi v, h.size, h.ofState, h.transition⟩ rfl
  · rename_i hlocal
    obtain ⟨i, hi, rfl⟩ := Option.map_eq_some_iff.1 hslot
    have hlt : i < r.locals.size := h.size ▸ SymbolTable.slot?_lt hi
    rw [Memory.set, if_neg hlocal]
    have hstep : playWith c s t limit (.storeLocal i :: rest) { r with stack := [v] } w =
        playWith c s t limit rest
          { r with stack := [], locals := r.locals.setIfInBounds i (some v) } w :=
      Machine.play_next (by simp [Machine.act, hlt])
    rw [Lowering.Slot.store, hstep]
    refine .stay ⟨h.toStored, ?_, ?_, h.transition⟩ rfl
    · simpa using h.size
    · intro y j hj
      rw [Array.getElem?_setIfInBounds]
      by_cases hxy : x = y
      · subst hxy
        obtain rfl : i = j := Option.some.inj (hi.symm.trans hj)
        simp [hlt]
      · have hij : i ≠ j := fun hij => hxy (SymbolTable.slot?_inj hi (hij ▸ hj))
        simp only [if_neg hij, if_neg hxy]
        exact h.ofState y j hj

section

variable {g : Setting} (hread : ∀ v ∈ p.literals, c.read v ∈ p.literals → c.read v = g.read v)
  (hresolved : ∀ f ∈ c.functions.symbols.keys, (g.functions.resolve? f).isSome)

include hread hresolved

theorem ActionCode.tracks (hstates : c.states.keys = p.states.keys) {a : Action} {code : List Op}
    (h : ActionCode p (c.scope s) a code) (hm : Mirrors c s w₀ m r w) (hstack : r.stack = [])
    (rest : List Op) :
    Tracks c s g.functions g.limit w₀ rest (a.walkIn g m)
      (playWith c s g.functions g.limit (code ++ rest) r w) := by
  obtain ⟨stack, locals, transition⟩ := r
  obtain rfl : stack = [] := hstack
  cases h with
  | @assign x e slot code he hslot =>
    rw [List.append_assoc, he.play_singleton hread hresolved hm]
    exact .compute hm.toStored fun v _ => hm.store hslot v rest
  | @emit time e timeId component i j code he hi hj =>
    have hcomponent : c.labels.name i = component := SymbolTable.name_of_slot? hi
    have htimeId : c.labels.name j = timeId := SymbolTable.name_of_slot? hj
    have hemit : ∀ time v, playWith c s g.functions g.limit (.emit i j :: rest)
        ⟨[v, time], locals, transition⟩ w =
          Trace.given (time.toScalar.mapError .typeMismatch) w fun time =>
            (playWith c s g.functions g.limit rest ⟨[], locals, transition⟩ w).after
              [.emitted component timeId time v] := by
      intro time v
      rw [← hcomponent, ← htimeId]
      exact Machine.play_emit i j rest ⟨[], locals, transition⟩ w v time []
    have hplay := he.play_eq hread hresolved hm (.emit i j :: rest)
    simp only [Expr.evalAllIn, Trace.given_bind, Trace.given_pure, Trace.given_ok,
      List.length_nil, Nat.zero_add, List.reverse_cons, List.reverse_nil, List.nil_append,
      List.cons_append, List.append_nil, hemit] at hplay
    rw [List.append_assoc, List.singleton_append, hplay]
    refine .compute hm.toStored fun time _ => .compute hm.toStored fun v _ => ?_
    exact .compute hm.toStored fun time _ => .goes hm rfl
  | abort =>
    have hstep : playWith c s g.functions g.limit (.abort :: rest) ⟨[], locals, transition⟩ w =
        ⟨[], .ok .aborted, w⟩ := by
      rw [playWith, Machine.play]
      rfl
    rw [List.singleton_append, hstep]
    exact .ends rfl (by simp) hm.toStored
  | @raise kind message i hi =>
    have hstep : playWith c s g.functions g.limit (.raise i :: rest) ⟨[], locals, transition⟩ w =
        ⟨[], .ok (.raised i), w⟩ := by
      rw [playWith, Machine.play]
      rfl
    have hi : c.raises[i]? = some (kind, message) := hi
    have hending : c.ending (.ok (.raised i)) = some (.raised kind message) := by
      rw [Code.ending, hi, Option.map_some]
    rw [List.singleton_append, hstep]
    exact .ends hending (by simp) hm.toStored
  | @transition next i hi =>
    have hstep : playWith c s g.functions g.limit (.transition i :: rest)
        ⟨[], locals, transition⟩ w =
          playWith c s g.functions g.limit rest ⟨[], locals, some i⟩ w := Machine.play_next rfl
    have hindex : c.stateIndex? next = some i := (Roster.place?_congr hstates next).trans hi
    rw [List.singleton_append, hstep]
    refine .stay ⟨hm.toStored, hm.size, hm.ofState, ?_⟩ rfl
    rw [Option.map_some, hindex, Option.map_some]

lemma ExprCode.branch_tracks {e : Expr} {code ops rest : List Op} {offset : ℕ} {yes no : Walk}
    (h : ExprCode p.literals (c.scope s) [e] code) (hm : Mirrors c s w₀ m r w)
    (hstack : r.stack = [])
    (hyes : Tracks c s g.functions g.limit w₀ rest yes
      (playWith c s g.functions g.limit ops r w))
    (hno : Tracks c s g.functions g.limit w₀ rest no
      (playWith c s g.functions g.limit (ops.drop offset) r w)) :
    Tracks c s g.functions g.limit w₀ rest
      (.compute m (e.test g m) fun b => if b then yes else no)
      (playWith c s g.functions g.limit (code ++ .jumpIfFalse offset :: ops) r w) := by
  obtain ⟨stack, locals, transition⟩ := r
  obtain rfl : stack = [] := hstack
  have hjump : ∀ v, playWith c s g.functions g.limit (.jumpIfFalse offset :: ops)
      ⟨[v], locals, transition⟩ w = Trace.given (v.truth.mapError .typeMismatch) w fun b =>
        playWith c s g.functions g.limit (ops.drop (if b then 0 else offset))
          ⟨[], locals, transition⟩ w :=
    fun v => Machine.play_jumpIfFalse offset ops ⟨[], locals, transition⟩ w v []
  rw [Expr.test, Walk.compute_bind, h.play_singleton hread hresolved hm]
  simp only [hjump]
  refine .compute hm.toStored fun v _ => .compute hm.toStored fun b _ => ?_
  cases b with
  | true => exact hyes
  | false => exact hno

/-- **Code for steps goes where the walk over them goes.** -/
theorem StepCode.tracks (hstates : c.states.keys = p.states.keys) {steps : List Step}
    {code : List Op} (h : StepCode p (c.scope s) steps code) (hm : Mirrors c s w₀ m r w)
    (hstack : r.stack = []) (rest : List Op) :
    Tracks c s g.functions g.limit w₀ rest (Step.walkAllIn g p.instructions steps m)
      (playWith c s g.functions g.limit (code ++ rest) r w) := by
  have hbranch : ∀ {id i c' y n}, p.instructions.get? id = some i → i.action = .branch c' y n →
      (p.instructions.get? id).bind Instruction.condition? = some c' := by
    intro id i c' y n hi haction
    rw [hi, Option.bind_some, Instruction.condition?, haction]
  induction h generalizing m r w rest with
  | nil => exact .stay hm hstack
  | @run id i code steps k hi hcode _ ih =>
    rw [Step.walkAllIn, Step.walkIn, hi, List.append_assoc]
    exact (hcode.tracks hread hresolved hstates hm hstack _).andThen
      fun m r w hm hstack => ih hm hstack rest
  | @ifOnly id i c' y n steps' steps code yes k hi haction hc _ _ ihyes ih =>
    rw [Step.walkAllIn, Step.walkIn, hbranch hi haction]
    simp only [List.append_assoc, List.cons_append]
    refine Tracks.andThen (?_ : Tracks c s g.functions g.limit w₀ (k ++ rest) _ _)
      fun m r w hm hstack => ih hm hstack rest
    refine hc.branch_tracks hread hresolved hm hstack (ihyes hm hstack _) ?_
    rw [List.drop_left, Step.walkAllIn]
    exact .stay hm hstack
  | @ifElse id i c' y n steps' steps'' steps code yes no k hi haction hc _ _ _ ihyes ihno ih =>
    rw [Step.walkAllIn, Step.walkIn, hbranch hi haction]
    simp only [List.append_assoc, List.cons_append]
    refine Tracks.andThen (?_ : Tracks c s g.functions g.limit w₀ (k ++ rest) _ _)
      fun m r w hm hstack => ih hm hstack rest
    refine hc.branch_tracks hread hresolved hm hstack ?_ ?_
    · -- behind its first arm, a branch jumps over the second one
      refine (ihyes hm hstack (.jump no.length :: (no ++ (k ++ rest)))).congr fun r w => ?_
      rw [playWith, Machine.play_jump, List.drop_left]
    · rw [drop_then]
      exact ihno hm hstack _

end

/-! ### Walks without a bound -/

variable (c s t limit w₀) in
/-- A run goes where a walk without a bound goes: it has run out of stack, or it is where the walk
is, with the given operations left, or both have ended in the same way. -/
inductive Follows (rest : List Op) : Walk → Trace → Prop where
  | overflow {walk : Walk} {u : Trace} (h : u.result = .error (.stackOverflow limit)) :
      Follows rest walk u
  | goes {events : List Event} {m : Memory} {r : Registers} {w : Storage}
      (hm : Mirrors c s w₀ m r w) :
      Follows rest ⟨events, m, none⟩ ((playWith c s t limit rest r w).after events)
  | ends {events : List Event} {m : Memory} {w : Storage} {result : Except MachineError Yield}
      {e : Ending} (hending : c.ending result = some e) (hw : Stored c w₀ m.persistent w) :
      Follows rest ⟨events, m, some e⟩ ⟨events, result, w⟩

namespace Follows

variable {rest : List Op} {walk : Walk} {u : Trace}

lemma after (h : Follows c s t limit w₀ rest walk u) (events : List Event) :
    Follows c s t limit w₀ rest { walk with events := events ++ walk.events } (u.after events) := by
  cases h with
  | overflow h => exact overflow h
  | goes hm =>
    rw [← Trace.after_append]
    exact goes hm
  | ends hending hw => exact ends hending hw

lemma andThen {rest' : List Op} {next : Memory → Walk} (h : Follows c s t limit w₀ rest' walk u)
    (hnext : ∀ m r w, Mirrors c s w₀ m r w →
      Follows c s t limit w₀ rest (next m) (playWith c s t limit rest' r w)) :
    Follows c s t limit w₀ rest (walk.andThen next) u := by
  cases h with
  | overflow h => exact overflow h
  | goes hm => exact (hnext _ _ _ hm).after _
  | ends hending hw => exact ends hending hw

lemma eq_error_of_ending {result : Except MachineError Yield} {e : MachineError}
    (h : c.ending result = some (.failed e)) : result = .error e := by
  rcases result with e' | y
  · have hfailed : Ending.failed e' = .failed e := Option.some.inj h
    rw [Ending.failed.inj hfailed]
  · cases y <;> simp [Code.ending] at h

lemma of_tracks {walk' : Walk} (h : Tracks c s t limit w₀ rest walk u)
    (hwithin : walk.Within limit walk') : Follows c s t limit w₀ rest walk' u := by
  rcases hwithin with hfull | rfl
  · cases h with
    | goes hm hstack => cases hfull
    | ends hending hne hw =>
      obtain rfl := Option.some.inj hfull
      exact overflow (eq_error_of_ending hending)
  · cases h with
    | goes hm hstack => exact goes hm
    | ends hending hne hw => exact ends hending hw

end Follows

/-- Where equal literals are identical, code for steps goes where the meaning of the steps goes. -/
theorem StepCode.follows
    (hliterals : ∀ u ∈ p.literals, ∀ v ∈ p.literals, (u == v) = true → u = v)
    (hresolved : ∀ f ∈ c.functions.symbols.keys, (t.resolve? f).isSome)
    (hstates : c.states.keys = p.states.keys) {steps : List Step} {code : List Op}
    (h : StepCode p (c.scope s) steps code) {locals : Array (Option Value)}
    {transition : Option ℕ} (hm : Mirrors c s w₀ m ⟨[], locals, transition⟩ w) (rest : List Op) :
    Follows c s t limit w₀ rest (Step.walkAll t p.instructions steps m)
      (playWith c s t limit (code ++ rest) ⟨[], locals, transition⟩ w) := by
  have htracks := h.tracks (g := .plain t limit)
    (fun v hv hread => Tables.read_eq_self hliterals hv hread) hresolved hstates hm rfl rest
  exact .of_tracks htracks (Step.walkAllIn_within t limit p.instructions steps m)

/-! ### States -/

/-- A run and a walk have the same events, have ended in the same way, and leave the persistent
variables with the same values. -/
structure Trace.Agrees (c : Code) (w₀ : Storage) (u : Trace) (walk : Walk) : Prop where
  events : u.events = walk.events
  ending : ∃ e, walk.ending = some e ∧ c.ending u.result = some e
  stored : Stored c w₀ walk.memory.persistent u.storage

lemma Follows.agrees {rest : List Op} {walk : Walk} {u : Trace}
    (h : Follows c s t limit w₀ rest walk u) (hended : walk.ending ≠ none) :
    u.result = .error (.stackOverflow limit) ∨ u.Agrees c w₀ walk := by
  cases h with
  | overflow h => exact .inl h
  | goes hm => exact absurd rfl hended
  | ends hending hw => exact .inr ⟨rfl, ⟨_, rfl, hending⟩, hw⟩

lemma State.ending_walk_ne_none (t : FunctionTable) (i : InstructionSet) (st : State)
    (steps : List Step) (m : Memory) : (st.walk t i steps m).ending ≠ none := by
  unfold State.walk Walk.andThen
  split
  · rename_i e he
    rw [he]
    exact Option.some_ne_none e
  · exact Option.some_ne_none _

lemma Code.Of.name_of_stateIndex? (h : c.Of p) (hp : p.Accepted) {name : String} {i : ℕ}
    (hi : c.stateIndex? name = some i) : (c.state? i).map StateCode.name = some name := by
  obtain ⟨s, hs⟩ := (Roster.place?_eq_some_iff _ _ _).1 hi
  have hs : c.states.entries[i]? = some (name, s) := by simpa [Roster.toList] using hs
  have hstate : c.state? i = some s := by rw [Code.state?, hs, Option.map_some]
  have hname := h.getElem?_keys hp hstate
  rw [Roster.getElem?_keys, hs, Option.map_some, Option.some.injEq] at hname
  rw [hstate, Option.map_some, ← hname]

lemma Code.Of.ending_completed (h : c.Of p) (hp : p.Accepted) {name : String} {i : ℕ}
    (hi : c.stateIndex? name = some i) :
    c.ending (.ok (.completed i)) = some (.completed name) := by
  obtain ⟨s, hs, rfl⟩ := Option.map_eq_some_iff.1 (h.name_of_stateIndex? hp hi)
  rw [Code.ending, hs, Option.map_some]

lemma Mirrors.stateIndex?_next (hm : Mirrors c s w₀ m r w) (h : c.Of p) {st : State}
    (hs : s.Of p c.toTables st) :
    c.stateIndex? (m.transition.getD st.next) = some (r.transition.getD s.next) := by
  have htransition := hm.transition
  cases hmt : m.transition with
  | none =>
    rw [hmt, Option.map_none, eq_comm, Option.map_eq_none_iff] at htransition
    rw [htransition]
    exact (Roster.place?_congr h.keys _).trans hs.next
  | some next =>
    rw [hmt, Option.map_some, eq_comm, Option.map_eq_some_iff] at htransition
    obtain ⟨i, hi, heq⟩ := htransition
    rw [hi]
    exact heq.symm

variable (c s t limit) in
lemma playWith_complete (r : Registers) (w : Storage) :
    playWith c s t limit [.complete] r w =
      ⟨[], .ok (.completed (r.transition.getD s.next)), w⟩ :=
  Machine.play_complete r w

variable (t limit) in
lemma Mirrors.complete (hm : Mirrors c s w₀ m r w) (h : c.Of p) (hp : p.Accepted) {st : State}
    (hs : s.Of p c.toTables st) :
    Follows c s t limit w₀ [] ⟨[], m, some (.completed (m.transition.getD st.next))⟩
      (playWith c s t limit [.complete] r w) := by
  rw [playWith_complete]
  exact .ends (h.ending_completed hp (hm.stateIndex?_next h hs)) hm.toStored

end

/-- **Compilation preserves meaning.** Take an accepted program whose literals are identical where
they are equal, the code generated for it and a table with all functions it calls. A new frame of a
state that is resumed until it no longer emits runs out of stack, or agrees with the walk over the
schedule of the state. -/
theorem drive_agrees_with_walk {instructions : InstructionSet} {states : List State}
    {initial : String} {p : Program} (hp : Program.create instructions states initial = .ok p)
    {reserved : List String} {c : Code} (hc : Code.ofProgram reserved p = .ok c)
    (hliterals : ∀ u ∈ p.literals, ∀ v ∈ p.literals, (u == v) = true → u = v)
    {t : FunctionTable} (hresolved : ∀ f ∈ c.functions.symbols.keys, (t.resolve? f).isSome)
    {name : String} {st : State} (hst : p.state? name = some st) (storage : Storage) (limit : ℕ) :
    ∃ steps index frame, Schedule.ofRoots p.instructions st.roots = .ok steps ∧
      c.stateIndex? name = some index ∧ Frame.start c index = .ok frame ∧
      let trace := Machine.drive c (Stepper.host c (c.resolved t)) limit frame storage
      trace.result = .error (.stackOverflow limit) ∨
        trace.Agrees c storage
          (st.walk t p.instructions steps { persistent := c.contents storage }) := by
  have hacc := Program.accepted_of_create hp
  have hof := Code.of_ofProgram hacc.name_eq hc
  obtain ⟨index, hindex, hvalue⟩ := (Roster.get?_eq_some_iff_place? _ _ _).1 hst
  obtain ⟨s, hs, hsof⟩ := hof.state index st hvalue
  obtain ⟨steps, body, hroots, hcode, hops⟩ := hsof.ops
  have hstart : Frame.start c index =
      .ok { state := index, locals := Array.replicate s.locals.size none } := by
    rw [Frame.start, hs]
  refine ⟨steps, index, _, hroots, (Roster.place?_congr hof.keys name).trans hindex, hstart, ?_⟩
  have hm : Mirrors c s storage { persistent := c.contents storage }
      { locals := Array.replicate s.locals.size none } storage := by
    refine ⟨⟨fun _ => rfl, fun _ _ => rfl⟩, by simp, fun x i hi => ?_, rfl⟩
    simp [SymbolTable.slot?_lt hi]
  have hfollows := (hcode.follows hliterals hresolved hof.keys hm [.complete]).andThen
    fun m r w hm => hm.complete t limit hof hacc hsof
  rw [Machine.drive_eq_play _ storage hs, List.drop_zero, hops]
  exact hfollows.agrees (State.ending_walk_ne_none t p.instructions st steps _)

def guessAndCheck : InstructionSet :=
  (InstructionSet.empty.addAll [
    ⟨"guess", ∅, .assign "k" (.call "<func>f" [.var "<t>"] [("h", .var "<dt>")])⟩,
    ⟨"check", .ofList ["guess"], .branch (.binary .gt (.var "k") (.literal (.scalar 0)))
      (.ofList ["out", "save"]) (.ofList ["stop"])⟩,
    ⟨"out", ∅, .emit (.var "<t>") "final"
      (.cond (.literal (.bool true)) (.var "k") (.literal (.scalar 1))) "y"⟩,
    ⟨"save", .ofList ["out"], .assign "<p>last" (.var "k")⟩,
    ⟨"stop", ∅, .abort⟩]).toOption.getD .empty

def sumTable : FunctionTable := .ofList [("f", {
  signature := some { params := ["x", "h"] }
  body := fun
    | [x, h] => (x.binary .add h).mapError ValueError.message
    | _ => .error "two arguments expected" })]

/-- The time and the step size are 1, and the stack has room for two values. -/
theorem drive_agrees_with_walk_guess : ∃ p c st,
    Program.create guessAndCheck [⟨"s", ["check"], "s"⟩] "s" = .ok p ∧
    Code.ofProgram defaultReserved p = .ok c ∧
    (∀ u ∈ p.literals, ∀ v ∈ p.literals, (u == v) = true → u = v) ∧
    (∀ f ∈ c.functions.symbols.keys, (sumTable.resolve? f).isSome) ∧ p.state? "s" = some st ∧
    ∃ steps index frame, Schedule.ofRoots p.instructions st.roots = .ok steps ∧
      c.stateIndex? "s" = some index ∧ Frame.start c index = .ok frame ∧
      (Machine.drive c (Stepper.host c (c.resolved sumTable)) 2 frame
        ⟨#[some (.scalar 1), some (.scalar 1)]⟩).Agrees c
          ⟨#[some (.scalar 1), some (.scalar 1)]⟩
          (st.walk sumTable p.instructions steps
            { persistent := c.contents ⟨#[some (.scalar 1), some (.scalar 1)]⟩ }) := by
  have hsome : ((Program.create guessAndCheck [⟨"s", ["check"], "s"⟩] "s").toOption.bind fun p =>
      (Code.ofProgram defaultReserved p).toOption.bind fun c => (p.state? "s").bind fun _ =>
        (c.stateIndex? "s").bind fun index => (Frame.start c index).toOption.bind fun frame =>
          if (∀ u ∈ p.literals, ∀ v ∈ p.literals, (u == v) = true → u = v) ∧
            (∀ f ∈ c.functions.symbols.keys, (sumTable.resolve? f).isSome) ∧
            (Machine.drive c (Stepper.host c (c.resolved sumTable)) 2 frame
              ⟨#[some (.scalar 1), some (.scalar 1)]⟩).result.toOption.isSome
          then some () else none) = some () := by
    decide +kernel
  obtain ⟨p, hp, hsome⟩ := Option.bind_eq_some_iff.1 hsome
  obtain ⟨c, hc, hsome⟩ := Option.bind_eq_some_iff.1 hsome
  obtain ⟨st, hst, hsome⟩ := Option.bind_eq_some_iff.1 hsome
  obtain ⟨index, hindex, hsome⟩ := Option.bind_eq_some_iff.1 hsome
  obtain ⟨frame, hframe, hsome⟩ := Option.bind_eq_some_iff.1 hsome
  rw [toOption_eq_some] at hp hc hframe
  obtain ⟨⟨hliterals, hresolved, hends⟩, -⟩ := Option.ite_none_right_eq_some.1 hsome
  obtain ⟨steps, index', frame', hsteps, hindex', hframe', hagrees⟩ :=
    drive_agrees_with_walk hp hc hliterals hresolved hst
      ⟨#[some (.scalar 1), some (.scalar 1)]⟩ 2
  obtain rfl := Option.some.inj (hindex.symm.trans hindex')
  obtain rfl := Except.ok.inj (hframe.symm.trans hframe')
  refine ⟨p, c, st, hp, hc, hliterals, hresolved, hst, steps, index, frame, hsteps, hindex, hframe,
    hagrees.resolve_left fun hoverflow => ?_⟩
  rw [hoverflow] at hends
  cases hends

end TimeMarch
