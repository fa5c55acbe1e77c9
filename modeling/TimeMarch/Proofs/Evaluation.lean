import TimeMarch.Proofs.Meaning
import TimeMarch.Proofs.Traces

/-!
# Evaluation on a Bounded Stack

The meaning of a schedule leaves two things out that code does not: the stack has a bound, and of
literals that are equal only one stands in the table. Expressions are evaluated here at a known
depth of the stack and with literals read as in the table, so a walk over a schedule does exactly
what code does. Where the bound is not met and literals read as they are, this is the meaning again.
-/

namespace TimeMarch

/-- What an evaluation goes by: the functions, how literals read, and the bound of the stack. -/
structure Setting where
  functions : FunctionTable
  read : Value → Value
  limit : ℕ

def Setting.plain (t : FunctionTable) (limit : ℕ) : Setting := ⟨t, fun v => v, limit⟩

namespace Expr

mutual

/-- The value of an expression above so many values on the stack. -/
def evalIn (g : Setting) (m : Memory) : Expr → (depth : ℕ) → Except MachineError Value
  | literal v, depth => Machine.fit g.limit depth (g.read v)
  | var x, depth => (m.get? x).elim (.error (.undefinedVariable x)) (Machine.fit g.limit depth)
  | unary op x, depth => do
    let v ← x.evalIn g m depth
    (v.unary op).mapError .typeMismatch
  | binary op l r, depth => do
    let v ← l.evalIn g m depth
    let w ← r.evalIn g m (depth + 1)
    (v.binary op w).mapError .typeMismatch
  | call f args keywords, depth => do
    let positional ← evalAllIn g m args depth
    let named ← evalKeywordsIn g m keywords (depth + args.length)
    let v ← g.functions.apply f positional named
    Machine.fit g.limit depth v
  | cond c y n, depth => do
    let v ← c.evalIn g m depth
    if ← v.truth.mapError .typeMismatch then y.evalIn g m depth else n.evalIn g m depth

def evalAllIn (g : Setting) (m : Memory) :
    List Expr → (depth : ℕ) → Except MachineError (List Value)
  | [], _ => .ok []
  | e :: rest, depth => do
    let v ← e.evalIn g m depth
    return v :: (← evalAllIn g m rest (depth + 1))

def evalKeywordsIn (g : Setting) (m : Memory) :
    List (String × Expr) → (depth : ℕ) → Except MachineError (List (String × Value))
  | [], _ => .ok []
  | (name, e) :: rest, depth => do
    let v ← e.evalIn g m depth
    return (name, v) :: (← evalKeywordsIn g m rest (depth + 1))

end

/-! ### The meaning again -/

/-- The computation runs out of stack, or is the other one. -/
def Within {α : Type} (limit : ℕ) (x y : Except MachineError α) : Prop :=
  x = .error (.stackOverflow limit) ∨ x = y

namespace Within

variable {α β : Type} {limit : ℕ}

lemma refl (x : Except MachineError α) : Within limit x x := .inr rfl

lemma bind {x y : Except MachineError α} {f f' : α → Except MachineError β}
    (h : Within limit x y) (hf : ∀ a, Within limit (f a) (f' a)) :
    Within limit (x >>= f) (y >>= f') := by
  rcases h with rfl | rfl
  · exact .inl rfl
  · cases x with
    | error e => exact .inr rfl
    | ok a => exact hf a

lemma fit (depth : ℕ) (v : Value) : Within limit (Machine.fit limit depth v) (.ok v) := by
  unfold Machine.fit
  split
  · exact .inl rfl
  · exact .inr rfl

end Within

section

variable (t : FunctionTable) (limit : ℕ) (m : Memory)

mutual

/-- A bounded stack can only make an evaluation fail. -/
theorem evalIn_within (e : Expr) (depth : ℕ) :
    Within limit (e.evalIn (.plain t limit) m depth) (e.eval t m) := by
  cases e with
  | literal v =>
    rw [evalIn, eval]
    exact .fit depth v
  | var x =>
    rw [evalIn, eval]
    cases m.get? x with
    | none => exact .refl _
    | some v => exact .fit depth v
  | unary op x =>
    rw [evalIn, eval]
    exact (evalIn_within x depth).bind fun v => .refl _
  | binary op l r =>
    rw [evalIn, eval]
    exact (evalIn_within l depth).bind fun v => (evalIn_within r (depth + 1)).bind fun w => .refl _
  | call f args keywords =>
    rw [evalIn, eval]
    refine (evalAllIn_within args depth).bind fun positional =>
      (evalKeywordsIn_within keywords _).bind fun named => ?_
    have hfit : Within limit (t.apply f positional named >>= Machine.fit limit depth)
        (t.apply f positional named) := by
      cases t.apply f positional named with
      | error e => exact .refl _
      | ok v => exact .fit depth v
    exact hfit
  | cond c y n =>
    rw [evalIn, eval]
    refine (evalIn_within c depth).bind fun v => Within.bind (.refl _) fun b => ?_
    cases b with
    | true => exact evalIn_within y depth
    | false => exact evalIn_within n depth

theorem evalAllIn_within (l : List Expr) (depth : ℕ) :
    Within limit (evalAllIn (.plain t limit) m l depth) (evalAll t m l) := by
  cases l with
  | nil => exact .refl _
  | cons e l =>
    rw [evalAllIn, evalAll]
    exact (evalIn_within e depth).bind fun v =>
      (evalAllIn_within l (depth + 1)).bind fun vs => .refl _

theorem evalKeywordsIn_within (l : List (String × Expr)) (depth : ℕ) :
    Within limit (evalKeywordsIn (.plain t limit) m l depth) (evalKeywords t m l) := by
  cases l with
  | nil => exact .refl _
  | cons entry l =>
    rw [evalKeywordsIn, evalKeywords]
    exact (evalIn_within entry.2 depth).bind fun v =>
      (evalKeywordsIn_within l (depth + 1)).bind fun vs => .refl _

end

end

/-! ### Rows of expressions -/

section Rows

variable (g : Setting) (m : Memory) (w : Storage)

lemma given_evalAllIn_append (l l' : List Expr) (depth : ℕ) (next : List Value → Trace) :
    Trace.given (evalAllIn g m (l ++ l') depth) w next =
      Trace.given (evalAllIn g m l depth) w fun vs =>
        Trace.given (evalAllIn g m l' (depth + l.length)) w fun vs' => next (vs ++ vs') := by
  induction l generalizing depth next with
  | nil => rfl
  | cons e l ih =>
    have hdepth : depth + 1 + l.length = depth + (e :: l).length := by
      rw [List.length_cons]
      omega
    simp only [List.cons_append, evalAllIn, Trace.given_bind, Trace.given_pure, ih, hdepth]

lemma given_evalAllIn_keywords (l : List (String × Expr)) (depth : ℕ)
    (next : List Value → Trace) :
    Trace.given (evalAllIn g m (l.map Prod.snd) depth) w next =
      Trace.given (evalKeywordsIn g m l depth) w fun named => next (named.map Prod.snd) := by
  induction l generalizing depth next with
  | nil => rfl
  | cons e l ih =>
    simp only [List.map_cons, evalAllIn, evalKeywordsIn, Trace.given_bind, Trace.given_pure, ih]

variable {g m}

lemma length_evalAllIn {l : List Expr} {depth : ℕ} {vs : List Value}
    (h : evalAllIn g m l depth = .ok vs) : vs.length = l.length := by
  induction l generalizing depth vs with
  | nil => cases h; rfl
  | cons e l ih =>
    rw [evalAllIn] at h
    obtain ⟨v, -, h⟩ := bind_eq_ok.1 h
    obtain ⟨vs', hvs', h⟩ := bind_eq_ok.1 h
    cases h
    simp [ih hvs']

lemma names_evalKeywordsIn {l : List (String × Expr)} {depth : ℕ} {named : List (String × Value)}
    (h : evalKeywordsIn g m l depth = .ok named) : named.map Prod.fst = l.map Prod.fst := by
  induction l generalizing depth named with
  | nil => cases h; rfl
  | cons e l ih =>
    rw [evalKeywordsIn] at h
    obtain ⟨v, -, h⟩ := bind_eq_ok.1 h
    obtain ⟨named', hnamed', h⟩ := bind_eq_ok.1 h
    cases h
    simp [ih hnamed']

end Rows

end Expr

/-! ### Walks -/

def Action.walkIn (g : Setting) (m : Memory) : Action → Walk
  | assign x e => .compute m (e.evalIn g m 0) fun v => .stay (m.set x v)
  | branch _ _ _ => .stay m
  | emit time timeId e component =>
    .compute m (time.evalIn g m 0) fun time => .compute m (e.evalIn g m 1) fun v =>
      .compute m (time.toScalar.mapError .typeMismatch) fun time =>
        ⟨[.emitted component timeId time v], m, none⟩
  | abort => ⟨[], m, some .aborted⟩
  | raise kind message => ⟨[], m, some (.raised kind message)⟩
  | transition next => .stay { m with transition := some next }

def Expr.test (g : Setting) (m : Memory) (e : Expr) : Except MachineError Bool := do
  (← e.evalIn g m 0).truth.mapError .typeMismatch

namespace Step

mutual

def walkIn (g : Setting) (s : InstructionSet) : Step → Memory → Walk
  | run id, m =>
    match s.get? id with
    | some i => i.action.walkIn g m
    | none => .stay m
  | branch id yes no, m =>
    match (s.get? id).bind Instruction.condition? with
    | some c => .compute m (c.test g m) fun b =>
      if b then walkAllIn g s yes m else walkAllIn g s no m
    | none => .stay m

def walkAllIn (g : Setting) (s : InstructionSet) : List Step → Memory → Walk
  | [], m => .stay m
  | step :: rest, m => (walkIn g s step m).andThen (walkAllIn g s rest)

end

end Step

def Walk.Within (limit : ℕ) (a b : Walk) : Prop :=
  a.ending = some (.failed (.stackOverflow limit)) ∨ a = b

namespace Walk.Within

variable {limit : ℕ}

lemma refl (a : Walk) : Walk.Within limit a a := .inr rfl

lemma compute {α : Type} {m : Memory} {x y : Except MachineError α} {f f' : α → Walk}
    (h : Expr.Within limit x y) (hf : ∀ a, (f a).Within limit (f' a)) :
    (Walk.compute m x f).Within limit (Walk.compute m y f') := by
  rcases h with rfl | rfl
  · exact .inl rfl
  · cases x with
    | error e => exact .inr rfl
    | ok a => exact hf a

lemma andThen {a b : Walk} {f f' : Memory → Walk} (h : a.Within limit b)
    (hf : ∀ m, (f m).Within limit (f' m)) : (a.andThen f).Within limit (b.andThen f') := by
  rcases h with hfull | rfl
  · left
    rw [Walk.andThen, hfull]
    exact hfull
  · unfold Walk.andThen
    split
    · exact .refl _
    · rcases hf a.memory with hfull | hsame
      · exact .inl hfull
      · exact .inr (by rw [hsame])

end Walk.Within

section

variable (t : FunctionTable) (limit : ℕ)

lemma Action.walkIn_within (a : Action) (m : Memory) :
    (a.walkIn (.plain t limit) m).Within limit (a.walk t m) := by
  cases a with
  | assign x e => exact .compute (e.evalIn_within t limit m 0) fun v => .refl _
  | emit time timeId e component =>
    exact .compute (time.evalIn_within t limit m 0) fun _ =>
      .compute (e.evalIn_within t limit m 1) fun _ => .refl _
  | branch _ _ _ => exact .refl _
  | abort => exact .refl _
  | raise _ _ => exact .refl _
  | transition _ => exact .refl _

mutual

theorem Step.walkIn_within (s : InstructionSet) (step : Step) (m : Memory) :
    (step.walkIn (.plain t limit) s m).Within limit (step.walk t s m) := by
  cases step with
  | run id =>
    rw [Step.walkIn, Step.walk]
    cases s.get? id with
    | none => exact .refl _
    | some i => exact i.action.walkIn_within t limit m
  | branch id yes no =>
    rw [Step.walkIn, Step.walk]
    cases (s.get? id).bind Instruction.condition? with
    | none => exact .refl _
    | some c =>
      refine .compute ((c.evalIn_within t limit m 0).bind fun v => .refl _) fun b => ?_
      cases b with
      | true => exact Step.walkAllIn_within s yes m
      | false => exact Step.walkAllIn_within s no m

theorem Step.walkAllIn_within (s : InstructionSet) (steps : List Step) (m : Memory) :
    (Step.walkAllIn (.plain t limit) s steps m).Within limit (Step.walkAll t s steps m) := by
  cases steps with
  | nil => exact .refl _
  | cons step steps =>
    rw [Step.walkAllIn, Step.walkAll]
    exact (Step.walkIn_within s step m).andThen fun m => Step.walkAllIn_within s steps m

end

end

end TimeMarch
