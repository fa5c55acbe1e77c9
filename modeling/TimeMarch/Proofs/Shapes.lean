import TimeMarch.Proofs.Visits

/-!
# Type Errors Do Not Depend on Numbers

Of a value the operators look at its shape first: whether it is a scalar, a truth value or a vector
of some length. Only `and` and `or` let a number decide whether the other operand is looked at. So
the code of an expression without these two, without calls and without conditions runs alike in
environments in which the variables have values of the same shapes: step by step, the operands on
the two stacks have the same shapes, or the two runs fail with the same error.
-/

namespace TimeMarch

/-! ### Shapes of values -/

/-- What one knows of a value without its numbers. -/
inductive Shape where
  | scalar
  | bool
  | vector (length : ℕ)
  deriving Repr, DecidableEq

def BinaryOp.isLogical : BinaryOp → Bool
  | and | or => true
  | _ => false

/-- Whether the expression is built from literals and variables by operators that do not ask for the
truth of one operand before they look at the other. -/
def Expr.isElementary : Expr → Bool
  | literal _ | var _ => true
  | unary _ x => x.isElementary
  | binary op l r => !op.isLogical && l.isElementary && r.isElementary
  | call _ _ _ | cond _ _ _ => false

namespace Value

def shape : Value → Shape
  | scalar _ => .scalar
  | bool _ => .bool
  | vector xs => .vector xs.length

variable {v v' w w' : Value}

lemma cases_of_shape_eq (h : v.shape = v'.shape) :
    (∃ x y, v = scalar x ∧ v' = scalar y) ∨ (∃ a b, v = bool a ∧ v' = bool b) ∨
      ∃ xs ys, v = vector xs ∧ v' = vector ys ∧ xs.length = ys.length := by
  cases v <;> cases v' <;> simp_all [shape]

/-! Each operator fails alike on operands of the same shapes, or gives values of the same shape. -/

lemma map_shape_unary (op : UnaryOp) (h : v.shape = v'.shape) :
    (v.unary op).map shape = (v'.unary op).map shape := by
  obtain ⟨x, y, rfl, rfl⟩ | ⟨a, b, rfl, rfl⟩ | ⟨xs, ys, rfl, rfl, hlength⟩ := cases_of_shape_eq h
  · cases op <;> simp [unary, truth, Except.map, shape]
  · cases op <;> simp [unary, truth, Except.map, shape]
  · cases op <;> simp [unary, truth, Except.map, shape, kind, hlength]

lemma map_shape_comparison (op : BinaryOp) (f : Float → Float → Bool) (hv : v.shape = v'.shape)
    (hw : w.shape = w'.shape) :
    (comparison op f v w).map shape = (comparison op f v' w').map shape := by
  obtain ⟨x, y, rfl, rfl⟩ | ⟨a, b, rfl, rfl⟩ | ⟨xs, ys, rfl, rfl, -⟩ := cases_of_shape_eq hv
  all_goals
    obtain ⟨x', y', rfl, rfl⟩ | ⟨a', b', rfl, rfl⟩ | ⟨xs', ys', rfl, rfl, -⟩ :=
      cases_of_shape_eq hw <;> simp [comparison, Except.map, shape, kind]

lemma map_shape_arithmetic (op : BinaryOp) (f : Float → Float → Float) (hv : v.shape = v'.shape)
    (hw : w.shape = w'.shape) :
    (arithmetic op f v w).map shape = (arithmetic op f v' w').map shape := by
  obtain ⟨x, y, rfl, rfl⟩ | ⟨a, b, rfl, rfl⟩ | ⟨xs, ys, rfl, rfl, hxs⟩ := cases_of_shape_eq hv
  · obtain ⟨x', y', rfl, rfl⟩ | ⟨a', b', rfl, rfl⟩ | ⟨xs', ys', rfl, rfl, hxs'⟩ :=
      cases_of_shape_eq hw <;> simp [arithmetic, Except.map, shape, kind, *]
  · obtain ⟨x', y', rfl, rfl⟩ | ⟨a', b', rfl, rfl⟩ | ⟨xs', ys', rfl, rfl, -⟩ :=
      cases_of_shape_eq hw <;> simp [arithmetic, Except.map, kind]
  · obtain ⟨x', y', rfl, rfl⟩ | ⟨a', b', rfl, rfl⟩ | ⟨xs', ys', rfl, rfl, hxs'⟩ :=
      cases_of_shape_eq hw
    · simp [arithmetic, Except.map, shape, hxs]
    · simp [arithmetic, Except.map, kind]
    · -- the lengths decide, and they are the same on both sides
      simp only [arithmetic, hxs, hxs']
      split
      · simp [Except.map, shape, hxs, hxs']
      · rfl

lemma map_shape_binary {op : BinaryOp} (hop : op.isLogical = false) (hv : v.shape = v'.shape)
    (hw : w.shape = w'.shape) : (v.binary op w).map shape = (v'.binary op w').map shape := by
  cases op with
  | add | sub | mul | div | pow => exact map_shape_arithmetic _ _ hv hw
  | lt | le | gt | ge => exact map_shape_comparison _ _ hv hw
  | eq | ne => simp [binary, Except.map, shape]
  | and | or => cases hop

end Value

lemma Lowering.exists_exprCode {reserved : Std.TreeSet String} {instruction : String} {e : Expr}
    {scope scope' : Scope} {code : Fragment}
    (h : expr reserved instruction e scope = .ok (code, scope')) :
    ∃ literals, ∀ g, scope'.Le g → ExprCode literals g [e] code.toList := by
  -- the literals that there are, and those of the expression
  refine ⟨scope.literals.toList ++ e.literals, fun g hg => ?_⟩
  obtain ⟨-, -, hcode⟩ := ensures_expr e (fun v hv => List.mem_append_right _ hv) scope code
    scope' h fun v hv => List.mem_append_left _ (Array.mem_toList_iff.2 hv)
  simpa using hcode g hg [] [] .nil

/-! ### Operations on operands -/

def Registers.above (r : Registers) (operands : List Value) : Registers :=
  { r with stack := operands ++ r.stack }

namespace Machine

lemma Fails.of_visits {c : Code} {s : StateCode} {host : Host Storage} {limit n m : ℕ} {f g : Frame}
    {w w' : Storage} {e : MachineError} (h : Visits c s host limit f w g w')
    (hfails : Fails c s host limit m g w' e) (hle : g.ip + m ≤ f.ip + n) :
    Fails c s host limit n f w e := by
  obtain ⟨g', w'', hip, hvisits, hlt, hact⟩ := hfails
  exact ⟨g', w'', hip, h.trans hvisits, by omega, hact⟩

lemma Visits.result_play_complete {c : Code} {s : StateCode} {host : Host Storage} {limit : ℕ}
    {f g : Frame} {w w' : Storage} {code : List Op} (h : Visits c s host limit f w g w')
    (hcode : s.ops.toList.drop f.ip = code ++ [.complete]) (hip : g.ip = f.ip + code.length) :
    (play c s host limit (code ++ [.complete]) f.toRegisters w).result =
      .ok (.completed (g.transition.getD s.next)) := by
  have hwhole : s.ops.toList.drop f.ip = (code ++ [.complete]) ++ [] := by
    rw [hcode, List.append_nil]
  have hlt : g.ip < f.ip + (code ++ [Op.complete]).length := by
    rw [hip, List.length_append]
    exact Nat.add_lt_add_left (Nat.lt_succ_self _) _
  rw [← h.result_play hwhole hlt, hip, Nat.add_sub_cancel_left, List.drop_left, play_complete]

structure Environment where
  host : Host Storage
  storage : Storage
  frame : Frame

namespace Environment

def value? (a : Environment) : Lowering.Slot → Option Value
  | .persistent i => a.host.load a.storage i
  | .ofState i => a.frame.locals[i]?.join

def ahead (a : Environment) (n : ℕ) (operands : List Value) : Frame :=
  ⟨a.frame.toRegisters.above operands, a.frame.state, a.frame.ip + n⟩

/-- With the operands `us` on top, the operation replaces them by `rest` and the value `x`, or fails
with the error `x`. -/
def Puts (a : Environment) (c : Code) (s : StateCode) (limit : ℕ) (op : Op) (us : List Value)
    (x : Except MachineError Value) (rest : List Value) : Prop :=
  match x with
  | .ok v => act c s a.host limit op (a.frame.toRegisters.above us) a.storage =
      (.go 0, a.frame.toRegisters.above (v :: rest), a.storage)
  | .error e => (act c s a.host limit op (a.frame.toRegisters.above us) a.storage).1 = .fail e

section

variable (a : Environment) {c : Code} {s : StateCode} {limit : ℕ} {us : List Value}

lemma push_above (v : Value) :
    push limit (a.frame.toRegisters.above us) v =
      if limit ≤ us.length + a.frame.stack.length then
        (.fail (.stackOverflow limit), a.frame.toRegisters.above us)
      else (.go 0, a.frame.toRegisters.above (v :: us)) := by
  simp [push, Registers.above]

lemma puts_of_push {op : Op} {v : Value}
    (h : act c s a.host limit op (a.frame.toRegisters.above us) a.storage =
      ((push limit (a.frame.toRegisters.above us) v).1,
        (push limit (a.frame.toRegisters.above us) v).2, a.storage)) :
    a.Puts c s limit op us (fit limit (us.length + a.frame.stack.length) v) us := by
  rw [push_above] at h
  unfold fit
  split
  · rw [Puts, h, if_pos ‹_›]
  · rw [Puts, h, if_neg ‹_›]

lemma puts_literal {i : ℕ} {v : Value} (hi : c.literals[i]? = some v) :
    a.Puts c s limit (.literal i) us (fit limit (us.length + a.frame.stack.length) v) us := by
  refine a.puts_of_push ?_
  simp only [act, hi]

lemma puts_loadPersistent (i : ℕ) :
    a.Puts c s limit (.loadPersistent i) us
      ((a.value? (.persistent i)).elim (.error (.undefinedVariable (c.persistent.name i)))
        (fit limit (us.length + a.frame.stack.length))) us := by
  cases hi : a.value? (.persistent i) with
  | none =>
    have hload : a.host.load a.storage i = none := hi
    simp only [Option.elim_none, Puts, act, hload]
  | some v =>
    have hload : a.host.load a.storage i = some v := hi
    refine a.puts_of_push ?_
    simp only [act, hload]

lemma puts_loadLocal (i : ℕ) :
    a.Puts c s limit (.loadLocal i) us
      (if i < a.frame.locals.size then
        (a.value? (.ofState i)).elim (.error (.undefinedVariable (s.locals.name i)))
          (fit limit (us.length + a.frame.stack.length))
      else .error (.danglingOperand a.frame.locals.size i)) us := by
  by_cases hi : i < a.frame.locals.size
  · rw [if_pos hi, value?]
    have hget := Array.getElem?_eq_getElem hi
    cases hv : a.frame.locals[i] with
    | none =>
      rw [hv] at hget
      simp only [hget, Option.join_some, Option.elim_none, Puts, act, Registers.above]
    | some v =>
      rw [hv] at hget
      rw [hget]
      refine a.puts_of_push ?_
      simp only [act, Registers.above, hget]
  · rw [if_neg hi]
    have hget := Array.getElem?_eq_none (Nat.le_of_not_lt hi)
    simp only [Puts, act, Registers.above, hget]

lemma puts_unary (op : UnaryOp) (v : Value) (us : List Value) :
    a.Puts c s limit (.unary op) (v :: us) ((v.unary op).mapError .typeMismatch) us := by
  cases h : v.unary op <;>
    simp only [Except.mapError, Puts, act, Registers.above, List.cons_append, h]

lemma puts_binary (op : BinaryOp) (v w : Value) (us : List Value) :
    a.Puts c s limit (.binary op) (w :: v :: us) ((v.binary op w).mapError .typeMismatch) us := by
  cases h : v.binary op w <;>
    simp only [Except.mapError, Puts, act, Registers.above, List.cons_append, h]

end

/-! ### Two runs side by side -/

/-- The environments differ in numbers only. The frames are at the same place, with as many values
on the stack, and each variable of the code has values of the same shape in both, or in neither any.
-/
structure Alike (c : Code) (s : StateCode) (a b : Environment) : Prop where
  ip : b.frame.ip = a.frame.ip
  height : b.frame.stack.length = a.frame.stack.length
  size : b.frame.locals.size = a.frame.locals.size
  values : ∀ x slot, (c.scope s).slot? x = some slot →
    (a.value? slot).map Value.shape = (b.value? slot).map Value.shape

/-- From the place `n` operations on, the two runs get past `m` more, with `k` operands of the same
shapes in place of those before, or they fail alike on the way. -/
def Agree (c : Code) (s : StateCode) (limit : ℕ) (a b : Environment) (n m : ℕ)
    (us us' : List Value) (k : ℕ) : Prop :=
  (∃ vs vs' : List Value, vs.length = k ∧ vs.map Value.shape = vs'.map Value.shape ∧
    Visits c s a.host limit (a.ahead n us) a.storage (a.ahead (n + m) vs) a.storage ∧
    Visits c s b.host limit (b.ahead n us') b.storage (b.ahead (n + m) vs') b.storage) ∨
  ∃ e, Fails c s a.host limit m (a.ahead n us) a.storage e ∧
    Fails c s b.host limit m (b.ahead n us') b.storage e

section

variable {a b : Environment} {c : Code} {s : StateCode} {limit n m : ℕ} {us us' : List Value}
  {k : ℕ}

lemma Agree.refl (h : us.map Value.shape = us'.map Value.shape) :
    Agree c s limit a b n 0 us us' us.length :=
  .inl ⟨us, us', rfl, h, .here, .here⟩

lemma Agree.trans {l k' : ℕ} (h : Agree c s limit a b n m us us' k)
    (h' : ∀ vs vs' : List Value, vs.length = k → vs.map Value.shape = vs'.map Value.shape →
      Agree c s limit a b (n + m) l vs vs' k') :
    Agree c s limit a b n (m + l) us us' k' := by
  obtain ⟨vs, vs', hk, hshapes, hvisits, hvisits'⟩ | ⟨e, hfails, hfails'⟩ := h
  · obtain ⟨ws, ws', hk', hshapes', hnext, hnext'⟩ | ⟨e, hfails, hfails'⟩ := h' vs vs' hk hshapes
    · rw [Nat.add_assoc] at hnext hnext'
      exact .inl ⟨ws, ws', hk', hshapes', hvisits.trans hnext, hvisits'.trans hnext'⟩
    · refine .inr ⟨e, .of_visits hvisits hfails ?_, .of_visits hvisits' hfails' ?_⟩ <;>
        simp only [ahead] <;> omega
  · exact .inr ⟨e, .of_visits .here hfails (by omega), .of_visits .here hfails' (by omega)⟩

lemma Puts.visits {op : Op} {rest : List Value} {v : Value} {ops : List Op}
    (h : a.Puts c s limit op us (.ok v) rest)
    (hop : s.ops.toList.drop (a.frame.ip + n) = op :: ops) :
    Visits c s a.host limit (a.ahead n us) a.storage (a.ahead (n + 1) (v :: rest)) a.storage := by
  obtain ⟨hip, rfl, -⟩ := getElem_of_drop_eq_cons hop
  exact Visits.here.next (f := a.ahead n us) hip h rfl

lemma Puts.fails {op : Op} {rest : List Value} {e : MachineError} {ops : List Op}
    (h : a.Puts c s limit op us (.error e) rest)
    (hop : s.ops.toList.drop (a.frame.ip + n) = op :: ops) :
    Fails c s a.host limit 1 (a.ahead n us) a.storage e := by
  obtain ⟨hip, rfl, -⟩ := getElem_of_drop_eq_cons hop
  exact ⟨a.ahead n us, a.storage, hip, .here, Nat.lt_succ_self _, h⟩

/-- **One step of the two runs**: what is put is of the same shape, or the same error. -/
lemma Alike.step (halike : Alike c s a b) {op : Op} {rest rest' : List Value}
    {x x' : Except MachineError Value} {ops : List Op}
    (hop : s.ops.toList.drop (a.frame.ip + n) = op :: ops) (h : a.Puts c s limit op us x rest)
    (h' : b.Puts c s limit op us' x' rest') (hx : x.map Value.shape = x'.map Value.shape)
    (hrest : rest.map Value.shape = rest'.map Value.shape) :
    Agree c s limit a b n 1 us us' (rest.length + 1) := by
  have hop' := hop
  rw [← halike.ip] at hop'
  cases x with
  | ok v =>
    cases x' with
    | ok v' =>
      have hv : v.shape = v'.shape := Except.ok.inj hx
      exact .inl ⟨v :: rest, v' :: rest', rfl, by simp [hv, hrest], h.visits hop, h'.visits hop'⟩
    | error e => cases hx
  | error e =>
    cases x' with
    | ok v' => cases hx
    | error e' =>
      obtain rfl : e = e' := Except.error.inj hx
      exact .inr ⟨e, h.fails hop, h'.fails hop'⟩

lemma map_shape_fit {v v' : Value} (h : v.shape = v'.shape) (depth : ℕ) :
    (fit limit depth v).map Value.shape = (fit limit depth v').map Value.shape := by
  unfold fit
  split
  · rfl
  · exact congrArg Except.ok h

lemma map_shape_elim_fit {v v' : Option Value} (h : v.map Value.shape = v'.map Value.shape)
    (e : MachineError) (depth : ℕ) :
    (v.elim (.error e) (fit limit depth)).map Value.shape =
      (v'.elim (.error e) (fit limit depth)).map Value.shape := by
  cases v with
  | none =>
    cases v' with
    | none => rfl
    | some v' => cases h
  | some v =>
    cases v' with
    | none => cases h
    | some v' => exact map_shape_fit (Option.some.inj h) depth

lemma Alike.depth (halike : Alike c s a b) (h : us.map Value.shape = us'.map Value.shape) :
    us'.length + b.frame.stack.length = us.length + a.frame.stack.length := by
  have hlength := congrArg List.length h
  rw [List.length_map, List.length_map] at hlength
  rw [hlength, halike.height]

lemma Alike.load (halike : Alike c s a b) {x : String} {slot : Lowering.Slot} {ops : List Op}
    (hslot : (c.scope s).slot? x = some slot)
    (hop : s.ops.toList.drop (a.frame.ip + n) = slot.load :: ops)
    (h : us.map Value.shape = us'.map Value.shape) :
    Agree c s limit a b n 1 us us' (us.length + 1) := by
  have hvalue := halike.values x slot hslot
  cases slot with
  | persistent i =>
    refine halike.step hop (a.puts_loadPersistent i) (b.puts_loadPersistent i) ?_ h
    rw [halike.depth h]
    exact map_shape_elim_fit hvalue _ _
  | ofState i =>
    refine halike.step hop (a.puts_loadLocal i) (b.puts_loadLocal i) ?_ h
    rw [halike.depth h, halike.size]
    split
    · exact map_shape_elim_fit hvalue _ _
    · rfl

lemma map_shape_mapError {x x' : Except ValueError Value}
    (h : x.map Value.shape = x'.map Value.shape) :
    (x.mapError MachineError.typeMismatch).map Value.shape =
      (x'.mapError MachineError.typeMismatch).map Value.shape := by
  have hcomm : ∀ y : Except ValueError Value,
      (y.mapError MachineError.typeMismatch).map Value.shape =
        (y.map Value.shape).mapError MachineError.typeMismatch := by
    intro y
    cases y <;> rfl
  rw [hcomm, hcomm, h]

lemma Alike.unary (halike : Alike c s a b) {op : UnaryOp} {ops : List Op}
    (hop : s.ops.toList.drop (a.frame.ip + n) = .unary op :: ops) (hk : us.length = k + 1)
    (h : us.map Value.shape = us'.map Value.shape) : Agree c s limit a b n 1 us us' (k + 1) := by
  obtain ⟨v, rest, rfl⟩ := List.exists_cons_of_length_eq_add_one hk
  obtain ⟨v', rest', rfl, hv, hrest⟩ := List.map_eq_cons_iff.1 h.symm
  obtain rfl : rest.length = k := Nat.succ.inj hk
  exact halike.step hop (a.puts_unary op v rest) (b.puts_unary op v' rest')
    (map_shape_mapError (Value.map_shape_unary op hv.symm)) hrest.symm

lemma Alike.binary (halike : Alike c s a b) {op : BinaryOp} (hlogical : op.isLogical = false)
    {ops : List Op} (hop : s.ops.toList.drop (a.frame.ip + n) = .binary op :: ops)
    (hk : us.length = k + 2) (h : us.map Value.shape = us'.map Value.shape) :
    Agree c s limit a b n 1 us us' (k + 1) := by
  obtain ⟨w, us, rfl⟩ := List.exists_cons_of_length_eq_add_one hk
  obtain ⟨v, rest, rfl⟩ := List.exists_cons_of_length_eq_add_one (Nat.succ.inj hk)
  obtain ⟨w', us', rfl, hw, h⟩ := List.map_eq_cons_iff.1 h.symm
  obtain ⟨v', rest', rfl, hv, hrest⟩ := List.map_eq_cons_iff.1 h
  obtain rfl : rest.length = k := Nat.succ.inj (Nat.succ.inj hk)
  exact halike.step hop (a.puts_binary op v w rest) (b.puts_binary op v' w' rest')
    (map_shape_mapError (Value.map_shape_binary hlogical hv.symm hw.symm)) hrest.symm

lemma drop_behind (piece : List Op) {ops : List Op}
    (h : s.ops.toList.drop (a.frame.ip + n) = piece ++ ops) :
    s.ops.toList.drop (a.frame.ip + (n + piece.length)) = ops := by
  rw [← Nat.add_assoc, ← List.drop_drop, h, List.drop_left]

lemma Agree.cons {l : ℕ} (h : Agree c s limit a b n m us us' (us.length + 1))
    (h' : ∀ {vs vs' : List Value}, vs.map Value.shape = vs'.map Value.shape →
      Agree c s limit a b (n + m) l vs vs' (vs.length + k)) :
    Agree c s limit a b n (m + l) us us' (us.length + (k + 1)) := by
  refine h.trans fun vs vs' hvs hshapes => ?_
  have hrest := h' hshapes
  rwa [hvs, Nat.add_assoc, Nat.add_comm 1] at hrest

/-- **The runs of the code of elementary expressions agree.** -/
theorem Alike.exprs (halike : Alike c s a b) {literals : List Value} {es : List Expr}
    {code ops : List Op} (h : ExprCode literals (c.scope s) es code)
    (hes : ∀ e ∈ es, e.isElementary = true)
    (hcode : s.ops.toList.drop (a.frame.ip + n) = code ++ ops)
    (hus : us.map Value.shape = us'.map Value.shape) :
    Agree c s limit a b n code.length us us' (us.length + es.length) := by
  -- each expression adds one operand; only its shape matters for the code that follows
  induction h generalizing n us us' ops with
  | nil => exact .refl hus
  | @literal i v es k hi _ _ _ ih =>
    rw [List.forall_mem_cons] at hes
    have hfirst : Agree c s limit a b n 1 us us' (us.length + 1) := by
      refine halike.step hcode (a.puts_literal hi) (b.puts_literal hi) ?_ hus
      rw [halike.depth hus]
    rw [List.length_cons, Nat.add_comm]
    exact hfirst.cons (ih hes.2 (drop_behind [_] hcode))
  | @var x slot es k hslot _ ih =>
    rw [List.forall_mem_cons] at hes
    rw [List.length_cons, Nat.add_comm]
    exact (halike.load hslot hcode hus).cons (ih hes.2 (drop_behind [_] hcode))
  | @unary op x code es k _ _ ihx ih =>
    rw [List.forall_mem_cons] at hes
    rw [List.append_assoc] at hcode
    have hbehind := drop_behind code hcode
    have hx : Agree c s limit a b n code.length us us' (us.length + 1) :=
      ihx (by simpa [Expr.isElementary] using hes.1) hcode hus
    have hfirst : Agree c s limit a b n (code.length + 1) us us' (us.length + 1) :=
      hx.trans fun _ _ hvs hshapes => halike.unary hbehind hvs hshapes
    rw [List.length_append, List.length_cons, Nat.add_comm k.length, ← Nat.add_assoc]
    exact hfirst.cons (ih hes.2 (drop_behind [_] hbehind))
  | @binary op l r code es k _ _ ihlr ih =>
    rw [List.forall_mem_cons] at hes
    obtain ⟨⟨hop, hl⟩, hr⟩ : (op.isLogical = false ∧ l.isElementary = true) ∧
        r.isElementary = true := by
      simpa [Expr.isElementary] using hes.1
    rw [List.append_assoc] at hcode
    have hbehind := drop_behind code hcode
    have hlr : Agree c s limit a b n code.length us us' (us.length + 2) :=
      ihlr (by simp [hl, hr]) hcode hus
    have hfirst : Agree c s limit a b n (code.length + 1) us us' (us.length + 1) :=
      hlr.trans fun _ _ hvs hshapes => halike.binary hop hbehind hvs hshapes
    rw [List.length_append, List.length_cons, Nat.add_comm k.length, ← Nat.add_assoc]
    exact hfirst.cons (ih hes.2 (drop_behind [_] hbehind))
  | call => cases hes _ List.mem_cons_self
  | cond => cases hes _ List.mem_cons_self

/-- **Type errors do not depend on the numbers.** In environments that differ in numbers only, the
code of an elementary expression leaves values of the same shape, or fails with the same error. -/
theorem Alike.shape_eq_or_same_error {reserved : Std.TreeSet String} {instruction : String}
    {e : Expr} {scope scope' : Scope} {code : Fragment} {ops : List Op}
    (he : e.isElementary = true)
    (hlower : Lowering.expr reserved instruction e scope = .ok (code, scope'))
    (hle : scope'.Le (c.scope s)) (hcode : s.ops.toList.drop a.frame.ip = code.toList ++ ops)
    (halike : Alike c s a b) (limit : ℕ) :
    (∃ v v' : Value, v.shape = v'.shape ∧
      Visits c s a.host limit a.frame a.storage (a.ahead code.length [v]) a.storage ∧
      Visits c s b.host limit b.frame b.storage (b.ahead code.length [v']) b.storage) ∨
    ∃ error, Fails c s a.host limit code.length a.frame a.storage error ∧
      Fails c s b.host limit code.length b.frame b.storage error := by
  obtain ⟨literals, hexpr⟩ := Lowering.exists_exprCode hlower
  have hagree : Agree c s limit a b 0 code.toList.length [] [] 1 :=
    halike.exprs (hexpr _ hle) (by simpa using he) hcode rfl
  rw [Fragment.length_toList] at hagree
  obtain ⟨vs, vs', hvs, hshapes, hvisits, hvisits'⟩ | hfails := hagree
  · obtain ⟨v, rfl⟩ := List.length_eq_one_iff.1 hvs
    obtain ⟨v', rfl, hshape⟩ := List.map_eq_singleton_iff.1 hshapes.symm
    rw [Nat.zero_add] at hvisits hvisits'
    exact .inl ⟨v, v', hshape.symm, hvisits, hvisits'⟩
  · exact .inr hfails

end

def difference : Expr := .binary .sub (.var "y") (.literal (.vector [1, 2]))

def codeOf (scope : Scope) : Code := ⟨scope.toTables, .empty, 0⟩

def stateOf (code : Fragment) (scope : Scope) : StateCode :=
  ⟨"s", 0, (code.toList ++ [Op.complete]).toArray, scope.locals⟩

def ofVector (xs : List Float) : Environment where
  host := ⟨fun _ _ => none, fun w _ _ => w, fun w _ _ _ => (.ok default, w)⟩
  storage := {}
  frame := { locals := #[some (.vector xs)], state := 0 }

lemma alike_ofVector (c : Code) (s : StateCode) {xs ys : List Float}
    (h : xs.length = ys.length) : Alike c s (ofVector xs) (ofVector ys) := by
  refine ⟨rfl, rfl, rfl, fun x slot _ => ?_⟩
  cases slot with
  | persistent i => rfl
  | ofState i => cases i <;> simp [value?, ofVector, Value.shape, h]

/-- Two vectors of three numbers, from which one of two numbers cannot be taken. -/
theorem Alike.shape_eq_or_same_error_difference : ∃ code scope,
    Lowering.expr {} "i" difference {} = .ok (code, scope) ∧
    Fails (codeOf scope) (stateOf code scope) (ofVector [3, 4, 5]).host 4 code.length
      (ofVector [3, 4, 5]).frame {} (.typeMismatch (.lengthMismatch 3 2)) ∧
    Fails (codeOf scope) (stateOf code scope) (ofVector [6, 7, 8]).host 4 code.length
      (ofVector [6, 7, 8]).frame {} (.typeMismatch (.lengthMismatch 3 2)) := by
  have hrun : ((Lowering.expr {} "i" difference {}).toOption.map fun lowered =>
      (play (codeOf lowered.2) (stateOf lowered.1 lowered.2) (ofVector [3, 4, 5]).host 4
        (lowered.1.toList ++ [.complete]) (ofVector [3, 4, 5]).frame.toRegisters {}).result.map
          fun _ => ()) = some (.error (.typeMismatch (.lengthMismatch 3 2))) := by
    decide +kernel
  obtain ⟨⟨code, scope⟩, hlower, hresult⟩ := Option.map_eq_some_iff.1 hrun
  rw [toOption_eq_some] at hlower
  rw [map_eq_error] at hresult
  have hwhole : (stateOf code scope).ops.toList.drop 0 = (code.toList ++ [.complete]) ++ [] :=
    (List.append_nil _).symm
  have halike : Alike (codeOf scope) (stateOf code scope) (ofVector [3, 4, 5])
      (ofVector [6, 7, 8]) := alike_ofVector _ _ (Eq.refl 3)
  refine ⟨code, scope, hlower, ?_⟩
  obtain ⟨v, v', -, hvisits, -⟩ | ⟨e, hfails, hfails'⟩ :=
    halike.shape_eq_or_same_error rfl hlower (.refl _) rfl 4
  · -- a run that got past the expression would be completed
    cases (hvisits.result_play_complete rfl (by simp [ahead, ofVector])).symm.trans hresult
  · have hlonger : Fails (codeOf scope) (stateOf code scope) (ofVector [3, 4, 5]).host 4
        (code.toList ++ [Op.complete]).length (ofVector [3, 4, 5]).frame {} e :=
      .of_visits .here hfails (by simp)
    obtain rfl := Except.error.inj (((fails_iff hwhole).1 hlonger).symm.trans hresult)
    exact ⟨hfails, hfails'⟩

end Environment

end Machine

end TimeMarch
