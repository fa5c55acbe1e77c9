import TimeMarch.Proofs.Translation

/-!
# Operands and the Depth of the Stack

Two things are to be known of code before it can be run without care: every operand points into its
table and every jump into the code, and along every path there are as many values on the stack as
operations take. `Fits` is the first and looks at each operation by itself, `Balanced` is the second
and follows the jumps. Both hold of the code of expressions and steps, whatever stands behind it.
-/

namespace TimeMarch

namespace Op

/-- The operands point into their tables, where the state has so many variables and the code so many
states. -/
def InRange (t : Tables) (locals states : ℕ) : Op → Prop
  | literal i => i < t.literals.size
  | loadPersistent i | storePersistent i => i < t.persistent.size
  | loadLocal i | storeLocal i => i < locals
  | call f _ keywords => f < t.functions.size ∧ ∃ names, t.keywords? keywords = some names
  | emit i j => i < t.labels.size ∧ j < t.labels.size
  | raise i => i < t.raises.size
  | transition i => i < states
  | unary _ | binary _ | jumpIfFalse _ | jump _ | abort | complete => True

def offset? : Op → Option ℕ
  | jumpIfFalse offset | jump offset => some offset
  | _ => none

/-- How many values an operation takes from the stack and puts there, if it neither jumps nor
completes the state. -/
def effect? (t : Tables) : Op → Option (ℕ × ℕ)
  | literal _ | loadPersistent _ | loadLocal _ => some (0, 1)
  | storePersistent _ | storeLocal _ => some (1, 0)
  | unary _ => some (1, 1)
  | binary _ => some (2, 1)
  | call _ arity keywords => (t.keywords? keywords).map fun names => (arity + names.length, 1)
  | emit _ _ => some (2, 0)
  | abort | raise _ | transition _ => some (0, 0)
  | jumpIfFalse _ | jump _ | complete => none

end Op

section

variable (t : Tables) (locals states : ℕ)

/-- All operands are in range, jumps do not leave the list, and nothing is complete yet. -/
def Fits : List Op → Prop
  | [] => True
  | op :: rest => op.InRange t locals states ∧ op ≠ .complete ∧
    (∀ offset, op.offset? = some offset → offset ≤ rest.length) ∧ Fits rest

/-- With so many values on the stack, no operation takes more than there are, on any path to the end
of the state. -/
inductive Balanced : ℕ → List Op → Prop where
  | complete : Balanced 0 [.complete]
  | jump {depth offset : ℕ} {rest : List Op} (h : Balanced depth (rest.drop offset)) :
      Balanced depth (.jump offset :: rest)
  | jumpIfFalse {depth offset : ℕ} {rest : List Op} (hyes : Balanced depth rest)
      (hno : Balanced depth (rest.drop offset)) :
      Balanced (depth + 1) (.jumpIfFalse offset :: rest)
  | plain {depth below taken put : ℕ} {op : Op} {rest : List Op}
      (h : op.effect? t = some (taken, put)) (hdepth : depth = below + taken)
      (hrest : Balanced (below + put) rest) : Balanced depth (op :: rest)

variable {t locals states}

lemma Fits.append {l l' : List Op} (h : Fits t locals states l) (h' : Fits t locals states l') :
    Fits t locals states (l ++ l') := by
  induction l with
  | nil => exact h'
  | cons op l ih =>
    obtain ⟨hrange, hne, hoffset, hrest⟩ := h
    rw [List.cons_append]
    refine ⟨hrange, hne, fun offset ho => ?_, ih hrest⟩
    have := hoffset offset ho
    rw [List.length_append]
    omega

lemma Fits.append_cons {l l' : List Op} {op : Op} (h : Fits t locals states l)
    (hrange : op.InRange t locals states) (hne : op ≠ .complete)
    (hoffset : ∀ offset, op.offset? = some offset → offset ≤ l'.length)
    (h' : Fits t locals states l') : Fits t locals states (l ++ op :: l') :=
  h.append ⟨hrange, hne, hoffset, h'⟩

lemma Fits.getElem? {ops : List Op} (h : Fits t locals states ops) {i : ℕ} {op : Op}
    (hi : ops[i]? = some op) : op.InRange t locals states ∧ op ≠ .complete ∧
      ∀ offset, op.offset? = some offset → i + 1 + offset ≤ ops.length := by
  induction ops generalizing i with
  | nil => cases hi
  | cons op' ops ih =>
    obtain ⟨hrange, hne, hoffset, hrest⟩ := h
    cases i with
    | zero =>
      obtain rfl : op' = op := Option.some.inj hi
      refine ⟨hrange, hne, fun offset ho => ?_⟩
      have := hoffset offset ho
      rw [List.length_cons]
      omega
    | succ i =>
      obtain ⟨hrange', hne', hoffset'⟩ := ih hrest hi
      refine ⟨hrange', hne', fun offset ho => ?_⟩
      have := hoffset' offset ho
      rw [List.length_cons]
      omega

end

/-! ### Generated code -/

section

variable {p : Program} {t : Tables} {s : StateCode} {states : ℕ}

lemma slot_inRange {x : String} {slot : Lowering.Slot} (h : (t.scope s).slot? x = some slot) :
    slot.load.InRange t s.locals.size states ∧ slot.store.InRange t s.locals.size states := by
  unfold Scope.slot? at h
  split at h
  · obtain ⟨i, hi, rfl⟩ := Option.map_eq_some_iff.1 h
    exact ⟨SymbolTable.slot?_lt hi, SymbolTable.slot?_lt hi⟩
  · obtain ⟨i, hi, rfl⟩ := Option.map_eq_some_iff.1 h
    exact ⟨SymbolTable.slot?_lt hi, SymbolTable.slot?_lt hi⟩

lemma lt_size_of_getElem? {α : Type} {a : Array α} {i : ℕ} {x : α} (h : a[i]? = some x) :
    i < a.size :=
  (Array.getElem?_eq_some_iff.1 h).1

theorem ExprCode.fits {literals : List Value} {es : List Expr} {code : List Op}
    (h : ExprCode literals (t.scope s) es code) : Fits t s.locals.size states code := by
  induction h with
  | nil => trivial
  | literal hi _ _ _ ih => exact ⟨lt_size_of_getElem? hi, by simp, by simp [Op.offset?], ih⟩
  | @var x slot _ _ hslot _ ih =>
    refine ⟨(slot_inRange hslot).1, ?_, ?_, ih⟩
    · cases slot <;> simp [Lowering.Slot.load]
    · cases slot <;> simp [Lowering.Slot.load, Op.offset?]
  | unary _ _ ihx ih => exact ihx.append_cons trivial (by simp) (by simp [Op.offset?]) ih
  | binary _ _ ihlr ih => exact ihlr.append_cons trivial (by simp) (by simp [Op.offset?]) ih
  | call _ hf hnames _ ihargs ih =>
    exact ihargs.append_cons ⟨SymbolTable.slot?_lt hf, _, hnames⟩ (by simp) (by simp [Op.offset?])
      ih
  | cond _ _ _ _ ihc ihy ihn ih =>
    refine ihc.append_cons trivial (by simp) ?_
      (ihy.append_cons trivial (by simp) ?_ (ihn.append ih))
    · simp [Op.offset?]
    · simp [Op.offset?]

theorem ExprCode.balanced {literals : List Value} {es : List Expr} {code : List Op}
    (h : ExprCode literals (t.scope s) es code) {depth : ℕ} {rest : List Op}
    (hrest : Balanced t (depth + es.length) rest) : Balanced t depth (code ++ rest) := by
  -- the first value lies below those of the rest of the row
  have hdepth : ∀ (depth : ℕ) (e : Expr) (es : List Expr),
      depth + (e :: es).length = depth + 1 + es.length := by
    intro depth e es
    rw [List.length_cons]
    omega
  induction h generalizing depth rest with
  | nil => exact hrest
  | literal _ _ _ _ ih =>
    rw [hdepth] at hrest
    exact .plain rfl rfl (ih hrest)
  | @var x slot _ _ _ _ ih =>
    rw [hdepth] at hrest
    cases slot with
    | persistent i => exact .plain rfl rfl (ih hrest)
    | ofState i => exact .plain rfl rfl (ih hrest)
  | unary _ _ ihx ih =>
    rw [hdepth] at hrest
    rw [List.append_assoc]
    exact ihx (.plain rfl rfl (ih hrest))
  | binary _ _ ihlr ih =>
    rw [hdepth] at hrest
    rw [List.append_assoc]
    exact ihlr (.plain rfl rfl (ih hrest))
  | @call f args keywords i names code es k _ _ hnames _ ihargs ih =>
    rw [hdepth] at hrest
    rw [List.append_assoc]
    have heffect : (Op.call i args.length names).effect? t =
        some ((args ++ keywords.map Prod.snd).length, 1) := by
      have hnames : t.keywords? names = some (keywords.map Prod.fst) := hnames
      simp [Op.effect?, hnames]
    exact ihargs (.plain heffect rfl (ih hrest))
  | cond _ _ _ _ ihc ihy ihn ih =>
    rw [hdepth] at hrest
    simp only [List.append_assoc, List.cons_append]
    refine ihc (.jumpIfFalse (ihy (.jump ?_)) ?_)
    · rw [List.drop_left]
      exact ih hrest
    · rw [drop_then]
      exact ihn (ih hrest)

lemma ActionCode.fits (hstates : p.states.size ≤ states) {a : Action} {code : List Op}
    (h : ActionCode p (t.scope s) a code) : Fits t s.locals.size states code := by
  cases h with
  | @assign x e slot code he hslot =>
    refine he.fits.append_cons (slot_inRange hslot).2 ?_ ?_ trivial
    · cases slot <;> simp [Lowering.Slot.store]
    · cases slot <;> simp [Lowering.Slot.store, Op.offset?]
  | emit he hi hj =>
    exact he.fits.append_cons ⟨SymbolTable.slot?_lt hi, SymbolTable.slot?_lt hj⟩ (by simp)
      (by simp [Op.offset?]) trivial
  | abort => exact ⟨trivial, by simp, by simp [Op.offset?], trivial⟩
  | raise hi => exact ⟨lt_size_of_getElem? hi, by simp, by simp [Op.offset?], trivial⟩
  | transition hi =>
    have hlt := Roster.place?_lt hi
    exact ⟨Nat.lt_of_lt_of_le hlt hstates, by simp, by simp [Op.offset?], trivial⟩

lemma ActionCode.balanced {a : Action} {code : List Op} (h : ActionCode p (t.scope s) a code)
    {depth : ℕ} {rest : List Op} (hrest : Balanced t depth rest) :
    Balanced t depth (code ++ rest) := by
  cases h with
  | @assign x e slot code he hslot =>
    rw [List.append_assoc]
    cases slot with
    | persistent i => exact he.balanced (.plain rfl rfl hrest)
    | ofState i => exact he.balanced (.plain rfl rfl hrest)
  | emit he hi hj =>
    rw [List.append_assoc]
    exact he.balanced (.plain rfl rfl hrest)
  | abort => exact .plain rfl rfl hrest
  | raise hi => exact .plain rfl rfl hrest
  | transition hi => exact .plain rfl rfl hrest

theorem StepCode.fits (hstates : p.states.size ≤ states) {steps : List Step} {code : List Op}
    (h : StepCode p (t.scope s) steps code) : Fits t s.locals.size states code := by
  induction h with
  | nil => trivial
  | run _ hcode _ ih => exact (hcode.fits hstates).append ih
  | ifOnly _ _ hc _ _ ihyes ih =>
    exact hc.fits.append_cons trivial (by simp) (by simp [Op.offset?]) (ihyes.append ih)
  | ifElse _ _ hc _ _ _ ihyes ihno ih =>
    refine hc.fits.append_cons trivial (by simp) ?_
      (ihyes.append_cons trivial (by simp) ?_ (ihno.append ih))
    · simp [Op.offset?]
    · simp [Op.offset?]

theorem StepCode.balanced {steps : List Step} {code : List Op}
    (h : StepCode p (t.scope s) steps code) {depth : ℕ} {rest : List Op}
    (hrest : Balanced t depth rest) : Balanced t depth (code ++ rest) := by
  induction h generalizing depth rest with
  | nil => exact hrest
  | run _ hcode _ ih =>
    rw [List.append_assoc]
    exact hcode.balanced (ih hrest)
  | ifOnly _ _ hc _ _ ihyes ih =>
    simp only [List.append_assoc, List.cons_append]
    refine hc.balanced (.jumpIfFalse (ihyes (ih hrest)) ?_)
    rw [List.drop_left]
    exact ih hrest
  | ifElse _ _ hc _ _ _ ihyes ihno ih =>
    simp only [List.append_assoc, List.cons_append]
    refine hc.balanced (.jumpIfFalse (ihyes (.jump ?_)) ?_)
    · rw [List.drop_left]
      exact ih hrest
    · rw [drop_then]
      exact ihno (ih hrest)

end

/-- Code of a state that can be run: every operand is in range, every jump ends at an operation, the
last operation and no other is `complete`, and the stack is balanced. -/
structure StateCode.Sound (c : Code) (s : StateCode) : Prop where
  next : s.next < c.states.size
  nonempty : 0 < s.ops.size
  inRange : ∀ (i : ℕ) op, s.ops[i]? = some op → op.InRange c.toTables s.locals.size c.states.size
  complete_iff : ∀ (i : ℕ) op, s.ops[i]? = some op → (op = .complete ↔ i + 1 = s.ops.size)
  offset_lt : ∀ (i : ℕ) op, s.ops[i]? = some op → ∀ offset, op.offset? = some offset →
    i + 1 + offset < s.ops.size
  balanced : Balanced c.toTables 0 s.ops.toList

lemma StateCode.Of.sound {p : Program} {c : Code} {st : State} {s : StateCode}
    (h : s.Of p c.toTables st) (hstates : p.states.size = c.states.size) : s.Sound c := by
  obtain ⟨steps, body, -, hcode, hops⟩ := h.ops
  have hfits := hcode.fits (Nat.le_of_eq hstates)
  have hsize : s.ops.size = body.length + 1 := by
    rw [← Array.length_toList, hops, List.length_append, List.length_singleton]
  -- an operation is one of the body or the last one
  have hop : ∀ (i : ℕ) op, s.ops[i]? = some op →
      body[i]? = some op ∧ i < body.length ∨ op = .complete ∧ i = body.length := by
    intro i op hi
    rw [← Array.getElem?_toList, hops, List.getElem?_append] at hi
    split at hi
    · exact .inl ⟨hi, ‹_›⟩
    · obtain ⟨hlt, heq⟩ := List.getElem?_eq_some_iff.1 hi
      rw [List.length_singleton] at hlt
      rw [List.getElem_singleton] at heq
      exact .inr ⟨heq.symm, by omega⟩
  refine ⟨hstates ▸ Roster.place?_lt h.next, by omega, fun i op hi => ?_, fun i op hi => ?_,
    fun i op hi offset ho => ?_, ?_⟩
  · rcases hop i op hi with ⟨hi, -⟩ | ⟨rfl, -⟩
    · exact (hfits.getElem? hi).1
    · trivial
  · rcases hop i op hi with ⟨hi, hlt⟩ | ⟨rfl, rfl⟩
    · exact ⟨fun heq => absurd heq (hfits.getElem? hi).2.1, fun heq => by omega⟩
    · exact ⟨fun _ => hsize.symm, fun _ => rfl⟩
  · rcases hop i op hi with ⟨hi, -⟩ | ⟨rfl, -⟩
    · have := (hfits.getElem? hi).2.2 offset ho
      omega
    · cases ho
  · rw [hops]
    exact hcode.balanced .complete

structure Code.Sound (c : Code) : Prop where
  initial : c.initial < c.states.size
  state : ∀ i s, c.state? i = some s → s.Sound c
  name : ∀ i s, c.state? i = some s → c.states.keys[i]? = some s.name

/-- **Generated code is sound.** -/
theorem Code.Of.sound {p : Program} {c : Code} (h : c.Of p) (hp : p.Accepted) : c.Sound := by
  have hstates : p.states.size = c.states.size := by
    rw [← Roster.length_keys, ← Roster.length_keys, h.keys]
  refine ⟨hstates ▸ Roster.place?_lt h.initial, fun i s hs => ?_, fun i s hs => ?_⟩
  · obtain ⟨st, -, hof⟩ := h.exists_state hs
    exact hof.sound hstates
  · exact h.getElem?_keys hp hs

end TimeMarch
