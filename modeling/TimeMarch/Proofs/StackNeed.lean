import TimeMarch.Proofs.Evaluation

/-!
# How Much Stack Expressions Need

How many values an expression has on the stack at most can be read off its shape. Evaluation on a
bounded stack never runs out of it if the bound leaves so much room. Where no part of the expression
is conditional all of it is evaluated, and then there must be so much room.
-/

namespace TimeMarch

namespace Expr

mutual

/-- How many values an expression puts on the stack at most, its own value included. -/
def need : Expr → ℕ
  | literal _ | var _ => 1
  | unary _ x => x.need
  | binary _ l r => max l.need (1 + r.need)
  | call _ args keywords => max 1 (max (needAll args 0) (needKeywords keywords args.length))
  | cond c y n => max c.need (max y.need n.need)

def needAll : List Expr → (below : ℕ) → ℕ
  | [], _ => 0
  | e :: rest, below => max (below + e.need) (needAll rest (below + 1))

def needKeywords : List (String × Expr) → (below : ℕ) → ℕ
  | [], _ => 0
  | (_, e) :: rest, below => max (below + e.need) (needKeywords rest (below + 1))

end

mutual

def isStraight : Expr → Bool
  | literal _ | var _ => true
  | unary _ x => x.isStraight
  | binary _ l r => l.isStraight && r.isStraight
  | call _ args keywords => isStraightAll args && isStraightKeywords keywords
  | cond _ _ _ => false

def isStraightAll : List Expr → Bool
  | [] => true
  | e :: rest => e.isStraight && isStraightAll rest

def isStraightKeywords : List (String × Expr) → Bool
  | [] => true
  | (_, e) :: rest => e.isStraight && isStraightKeywords rest

end

/-! ### Enough room -/

def Roomy {α : Type} (limit : ℕ) (x : Except MachineError α) : Prop :=
  x ≠ .error (.stackOverflow limit)

namespace Roomy

variable {α β : Type} {limit : ℕ}

lemma pure (a : α) : Roomy limit (pure a) := nofun

lemma ok (a : α) : Roomy limit (.ok a) := nofun

lemma bind {x : Except MachineError α} {f : α → Except MachineError β} (hx : Roomy limit x)
    (hf : ∀ a, Roomy limit (f a)) : Roomy limit (x >>= f) := by
  cases x with
  | error e => exact fun h => hx (by cases h; rfl)
  | ok a => exact hf a

lemma mapError (x : Except ValueError α) : Roomy limit (x.mapError .typeMismatch) := by
  cases x <;> exact nofun

lemma fit {depth : ℕ} (h : depth < limit) (v : Value) :
    Roomy limit (Machine.fit limit depth v) := by
  rw [Machine.fit, if_neg (by omega)]
  exact ok v

lemma apply (t : FunctionTable) (f : String) (positional : List Value)
    (named : List (String × Value)) : Roomy limit (t.apply f positional named) := by
  unfold FunctionTable.apply Function.reply
  split
  · exact nofun
  · split <;> exact nofun

end Roomy

section

variable {g : Setting} {m : Memory}

mutual

/-- **With as much room as it needs, an expression does not run out of stack.** -/
theorem roomy_evalIn (e : Expr) {depth : ℕ} (h : depth + e.need ≤ g.limit) :
    Roomy g.limit (e.evalIn g m depth) := by
  cases e with
  | literal v =>
    rw [need] at h
    rw [evalIn]
    exact .fit (by omega) _
  | var x =>
    rw [need] at h
    rw [evalIn]
    cases m.get? x with
    | none => exact nofun
    | some v => exact .fit (by omega) v
  | unary op x =>
    rw [need] at h
    rw [evalIn]
    exact (roomy_evalIn x h).bind fun v => .mapError _
  | binary op l r =>
    rw [need] at h
    rw [evalIn]
    exact (roomy_evalIn l (by omega)).bind fun v =>
      (roomy_evalIn r (by omega)).bind fun w => .mapError _
  | call f args keywords =>
    rw [need] at h
    rw [evalIn]
    exact (roomy_evalAllIn args depth 0 (by omega)).bind fun positional =>
      (roomy_evalKeywordsIn keywords depth args.length (by omega)).bind fun named =>
        (Roomy.apply _ _ _ _).bind fun v => .fit (by omega) v
  | cond c y n =>
    rw [need] at h
    rw [evalIn]
    refine (roomy_evalIn c (by omega)).bind fun v => (Roomy.mapError _).bind fun b => ?_
    cases b with
    | true => exact roomy_evalIn y (by omega)
    | false => exact roomy_evalIn n (by omega)

theorem roomy_evalAllIn (l : List Expr) (depth below : ℕ)
    (h : depth + needAll l below ≤ g.limit) :
    Roomy g.limit (evalAllIn g m l (depth + below)) := by
  cases l with
  | nil => exact .ok []
  | cons e l =>
    rw [needAll] at h
    rw [evalAllIn, Nat.add_assoc]
    exact (roomy_evalIn e (by omega)).bind fun v =>
      (roomy_evalAllIn l depth (below + 1) (by omega)).bind fun vs => .pure _

theorem roomy_evalKeywordsIn (l : List (String × Expr)) (depth below : ℕ)
    (h : depth + needKeywords l below ≤ g.limit) :
    Roomy g.limit (evalKeywordsIn g m l (depth + below)) := by
  cases l with
  | nil => exact .ok []
  | cons entry l =>
    obtain ⟨name, e⟩ := entry
    rw [needKeywords] at h
    rw [evalKeywordsIn, Nat.add_assoc]
    exact (roomy_evalIn e (by omega)).bind fun v =>
      (roomy_evalKeywordsIn l depth (below + 1) (by omega)).bind fun vs => .pure _

end

/-! ### Not enough room -/

lemma lt_of_fit {limit depth : ℕ} {v w : Value} (h : Machine.fit limit depth v = .ok w) :
    depth < limit := by
  unfold Machine.fit at h
  split at h
  · cases h
  · omega

mutual

/-- **An expression that is evaluated whole has had as much room as it needs.** -/
theorem need_le_of_evalIn (e : Expr) (hstraight : e.isStraight = true) {depth : ℕ} {v : Value}
    (h : e.evalIn g m depth = .ok v) : depth + e.need ≤ g.limit := by
  cases e with
  | literal u =>
    rw [evalIn] at h
    rw [need]
    exact lt_of_fit h
  | var x =>
    rw [evalIn] at h
    rw [need]
    cases hx : m.get? x with
    | none =>
      rw [hx] at h
      cases h
    | some u =>
      rw [hx] at h
      exact lt_of_fit h
  | unary op x =>
    rw [evalIn] at h
    rw [need]
    obtain ⟨u, hu, -⟩ := bind_eq_ok.1 h
    exact need_le_of_evalIn x hstraight hu
  | binary op l r =>
    rw [evalIn] at h
    rw [isStraight, Bool.and_eq_true] at hstraight
    obtain ⟨a, ha, h⟩ := bind_eq_ok.1 h
    obtain ⟨b, hb, -⟩ := bind_eq_ok.1 h
    have hl := need_le_of_evalIn l hstraight.1 ha
    have hr := need_le_of_evalIn r hstraight.2 hb
    rw [need]
    omega
  | call f args keywords =>
    rw [evalIn] at h
    rw [isStraight, Bool.and_eq_true] at hstraight
    obtain ⟨positional, hpositional, h⟩ := bind_eq_ok.1 h
    obtain ⟨named, hnamed, h⟩ := bind_eq_ok.1 h
    obtain ⟨u, -, h⟩ := bind_eq_ok.1 h
    -- the value of the call lies where its first argument lay
    have hdepth := lt_of_fit h
    have hargs := needAll_le_of_evalAllIn args hstraight.1 depth 0 (by omega) hpositional
    have hkeywords := needKeywords_le_of_evalKeywordsIn keywords hstraight.2 depth args.length
      (by omega) hnamed
    rw [need]
    omega
  | cond c y n =>
    rw [isStraight] at hstraight
    cases hstraight

theorem needAll_le_of_evalAllIn (l : List Expr) (hstraight : isStraightAll l = true)
    (depth below : ℕ) (hdepth : depth ≤ g.limit) {vs : List Value}
    (h : evalAllIn g m l (depth + below) = .ok vs) : depth + needAll l below ≤ g.limit := by
  cases l with
  | nil =>
    rw [needAll]
    exact hdepth
  | cons e l =>
    rw [evalAllIn, Nat.add_assoc] at h
    rw [isStraightAll, Bool.and_eq_true] at hstraight
    obtain ⟨v, hv, h⟩ := bind_eq_ok.1 h
    obtain ⟨vs', hvs', -⟩ := bind_eq_ok.1 h
    have he := need_le_of_evalIn e hstraight.1 hv
    have hl := needAll_le_of_evalAllIn l hstraight.2 depth (below + 1) hdepth hvs'
    rw [needAll]
    omega

theorem needKeywords_le_of_evalKeywordsIn (l : List (String × Expr))
    (hstraight : isStraightKeywords l = true) (depth below : ℕ) (hdepth : depth ≤ g.limit)
    {named : List (String × Value)} (h : evalKeywordsIn g m l (depth + below) = .ok named) :
    depth + needKeywords l below ≤ g.limit := by
  cases l with
  | nil =>
    rw [needKeywords]
    exact hdepth
  | cons entry l =>
    obtain ⟨name, e⟩ := entry
    rw [evalKeywordsIn, Nat.add_assoc] at h
    rw [isStraightKeywords, Bool.and_eq_true] at hstraight
    obtain ⟨v, hv, h⟩ := bind_eq_ok.1 h
    obtain ⟨named', hnamed', -⟩ := bind_eq_ok.1 h
    have he := need_le_of_evalIn e hstraight.1 hv
    have hl := needKeywords_le_of_evalKeywordsIn l hstraight.2 depth (below + 1) hdepth hnamed'
    rw [needKeywords]
    omega

end

end

/-! ### Literals as they read -/

mutual

def mapLiterals (f : Value → Value) : Expr → Expr
  | literal v => literal (f v)
  | var x => var x
  | unary op x => unary op (x.mapLiterals f)
  | binary op l r => binary op (l.mapLiterals f) (r.mapLiterals f)
  | call function args keywords =>
    call function (mapAllLiterals f args) (mapKeywordLiterals f keywords)
  | cond c y n => cond (c.mapLiterals f) (y.mapLiterals f) (n.mapLiterals f)

def mapAllLiterals (f : Value → Value) : List Expr → List Expr
  | [] => []
  | e :: rest => e.mapLiterals f :: mapAllLiterals f rest

def mapKeywordLiterals (f : Value → Value) : List (String × Expr) → List (String × Expr)
  | [] => []
  | (name, e) :: rest => (name, e.mapLiterals f) :: mapKeywordLiterals f rest

end

lemma mapAllLiterals_eq (f : Value → Value) (l : List Expr) :
    mapAllLiterals f l = l.map (mapLiterals f) := by
  induction l with
  | nil => rfl
  | cons e l ih => rw [mapAllLiterals, List.map_cons, ih]

lemma mapKeywordLiterals_eq (f : Value → Value) (l : List (String × Expr)) :
    mapKeywordLiterals f l = l.map fun entry => (entry.1, entry.2.mapLiterals f) := by
  induction l with
  | nil => rfl
  | cons entry l ih => rw [mapKeywordLiterals, List.map_cons, ih]

section

variable (g : Setting) (m : Memory)

mutual

theorem evalIn_mapLiterals (e : Expr) (depth : ℕ) :
    (e.mapLiterals g.read).evalIn (.plain g.functions g.limit) m depth = e.evalIn g m depth := by
  cases e with
  | literal v => rw [mapLiterals, evalIn, evalIn, Setting.plain]
  | var x => rw [mapLiterals, evalIn, evalIn, Setting.plain]
  | unary op x => rw [mapLiterals, evalIn, evalIn, evalIn_mapLiterals x]
  | binary op l r => rw [mapLiterals, evalIn, evalIn, evalIn_mapLiterals l, evalIn_mapLiterals r]
  | call f args keywords =>
    rw [mapLiterals, evalIn, evalIn, evalAllIn_mapLiterals args, mapAllLiterals_eq, List.length_map,
      evalKeywordsIn_mapLiterals keywords]
    rfl
  | cond c y n =>
    rw [mapLiterals, evalIn, evalIn, evalIn_mapLiterals c, evalIn_mapLiterals y,
      evalIn_mapLiterals n]

theorem evalAllIn_mapLiterals (l : List Expr) (depth : ℕ) :
    evalAllIn (.plain g.functions g.limit) m (mapAllLiterals g.read l) depth =
      evalAllIn g m l depth := by
  cases l with
  | nil => rfl
  | cons e l =>
    rw [mapAllLiterals, evalAllIn, evalAllIn, evalIn_mapLiterals e, evalAllIn_mapLiterals l]

theorem evalKeywordsIn_mapLiterals (l : List (String × Expr)) (depth : ℕ) :
    evalKeywordsIn (.plain g.functions g.limit) m (mapKeywordLiterals g.read l) depth =
      evalKeywordsIn g m l depth := by
  cases l with
  | nil => rfl
  | cons entry l =>
    obtain ⟨name, e⟩ := entry
    rw [mapKeywordLiterals, evalKeywordsIn, evalKeywordsIn, evalIn_mapLiterals e,
      evalKeywordsIn_mapLiterals l]

end

variable {g m}

/-- **Without as much room as it needs, a row that is evaluated whole runs out of stack**, if
nothing else is wrong with it. -/
theorem evalAllIn_eq_overflow {l : List Expr} (hstraight : isStraightAll l = true)
    (h : g.limit < needAll l 0) {vs : List Value}
    (hok : evalAll g.functions m (mapAllLiterals g.read l) = .ok vs) :
    evalAllIn g m l 0 = .error (.stackOverflow g.limit) := by
  have hwithin := evalAllIn_within g.functions g.limit m (mapAllLiterals g.read l) 0
  rw [evalAllIn_mapLiterals, hok] at hwithin
  rcases hwithin with hfull | hwhole
  · exact hfull
  · have hroom := needAll_le_of_evalAllIn l hstraight 0 0 (by omega) hwhole
    omega

end

end Expr

/-- How much stack the expressions of an instruction need in a row. -/
def Instruction.need (i : Instruction) : ℕ := Expr.needAll i.expressions 0

def Instruction.isStraight (i : Instruction) : Bool := Expr.isStraightAll i.expressions

end TimeMarch
