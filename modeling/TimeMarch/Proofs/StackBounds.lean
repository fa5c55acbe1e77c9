import TimeMarch.Proofs.StackNeed
import TimeMarch.Proofs.StepStreams
import TimeMarch.Proofs.Visits

/-!
# The Bound of the Stack Is Exact

The code of a state is the code of its instructions, one after the other, with jumps between them.
Between two instructions nothing is on the stack, and an instruction runs out of stack if and only
if its expressions do. So how much stack an instruction needs decides whether it runs out of it, but
for expressions that are not evaluated whole.
-/

namespace TimeMarch

/-! ### The height of the stack -/

namespace Machine

section

variable {c : Code} {s : StateCode} {host : Host Storage} {limit : ℕ} {r : Registers}

lemma length_push_le (h : r.stack.length ≤ limit) (v : Value) :
    (push limit r v).2.stack.length ≤ limit := by
  unfold push
  split
  · exact h
  · rw [List.length_cons]
    omega

lemma length_of_popMany? {n : ℕ} {stack values rest : List Value}
    (h : popMany? n stack = some (values, rest)) : rest.length ≤ stack.length := by
  unfold popMany? at h
  split at h
  · cases h
  · cases h
    rw [List.length_drop]
    omega

lemma length_call_le (h : r.stack.length ≤ limit) (function arity : ℕ) (names : List String)
    (w : Storage) : (call host limit function arity names r w).2.1.stack.length ≤ limit := by
  unfold call
  split
  · exact h
  · rename_i hkeywords
    have hbelow := length_of_popMany? hkeywords
    split
    · simp only
      omega
    · rename_i hpositional
      have hbelow' := length_of_popMany? hpositional
      split
      · simp only
        omega
      · exact length_push_le (by simp only; omega) _

/-- **No operation puts more on the stack than fits**, not even one that fails. -/
theorem length_le_of_act {op : Op} {w w' : Storage} {turn : Turn} {r' : Registers}
    (hact : act c s host limit op r w = (turn, r', w')) (h : r.stack.length ≤ limit) :
    r'.stack.length ≤ limit := by
  have hle : (act c s host limit op r w).2.1.stack.length ≤ limit := by
    cases op with
    | literal i =>
      rw [act]
      split
      · exact h
      · exact length_push_le h _
    | loadPersistent slot =>
      rw [act]
      split
      · exact h
      · exact length_push_le h _
    | loadLocal slot =>
      rw [act]
      split
      · exact h
      · exact h
      · exact length_push_le h _
    | call function arity keywords =>
      cases keywords with
      | none =>
        rw [act]
        exact length_call_le h function arity [] w
      | some k =>
        rw [act]
        split
        · exact h
        · exact length_call_le h function arity _ w
    | jump offset => exact h
    | abort => exact h
    | raise i => exact h
    | transition next => exact h
    | complete => exact h
    | _ => grind [act]
  rwa [hact] at hle

variable (c host) in
lemma length_resume_le {f : Frame} (h : f.stack.length ≤ limit) (w : Storage) :
    (resume c host limit f w).2.1.stack.length ≤ limit := by
  unfold resume
  split
  · rename_i s hs
    clear hs
    fun_induction resumeIn c s host limit f w with
    | case1 f w hip skip r w' hact ih => exact ih (length_le_of_act hact h)
    | case2 f w hip y r w' hact => exact length_le_of_act hact h
    | case3 f w hip e r w' hact => exact length_le_of_act hact h
    | case4 f w hip => exact h
  · exact h

lemma Visits.length_le {f g : Frame} {w w' : Storage} (h : Visits c s host limit f w g w')
    (hf : f.stack.length ≤ limit) : g.stack.length ≤ limit := by
  induction h with
  | here => exact hf
  | next _ _ hact _ ih => exact length_le_of_act hact ih

end

end Machine

/-! ### The code of an instruction -/

/-- An operation that ends the code of an instruction: it takes so many values from the stack and
puts none there, and goes on at one of the given distances behind it. -/
inductive Op.Closes : ℕ → List ℕ → Op → Prop where
  | store (slot : Lowering.Slot) : Closes 1 [0] slot.store
  | emit (component timeId : ℕ) : Closes 2 [0] (.emit component timeId)
  | abort : Closes 0 [0] .abort
  | raise (i : ℕ) : Closes 0 [0] (.raise i)
  | transition (next : ℕ) : Closes 0 [0] (.transition next)
  | jumpIfFalse (offset : ℕ) : Closes 1 [0, offset] (.jumpIfFalse offset)

/-- The operations carry out an instruction, up to the arms of a branch, and then go on at one of
the given distances behind them. -/
inductive InstructionCode (p : Program) (g : Scope) (i : Instruction) :
    List Op → List ℕ → Prop where
  | action {code : List Op} (h : ActionCode p g i.action code) : InstructionCode p g i code [0]
  | branch {c : Expr} {y n : NameSet} {code : List Op} {offset : ℕ}
      (haction : i.action = .branch c y n) (hc : ExprCode p.literals g [c] code) :
      InstructionCode p g i (code ++ [.jumpIfFalse offset]) [0, offset]

/-- Only whole instructions are left, on any path to the end of the state. -/
inductive Ahead (p : Program) (g : Scope) : List Op → Prop where
  | complete : Ahead p g [.complete]
  | jump {offset : ℕ} {rest : List Op} (h : Ahead p g (rest.drop offset)) :
      Ahead p g (.jump offset :: rest)
  | instruction {id : String} {i : Instruction} {code : List Op} {exits : List ℕ} {rest : List Op}
      (hi : p.instructions.get? id = some i) (hcode : InstructionCode p g i code exits)
      (h : ∀ k ∈ exits, Ahead p g (rest.drop k)) : Ahead p g (code ++ rest)

section

variable {p : Program} {t : Tables} {s : StateCode} {n : ℕ} {exits : List ℕ} {op : Op}
  {rest : List Op}

lemma InstructionCode.exists_closes {g : Scope} {i : Instruction} {code : List Op}
    (h : InstructionCode p g i code exits) :
    ∃ values op, code = values ++ [op] ∧ ExprCode p.literals g i.expressions values ∧
      op.Closes i.expressions.length exits := by
  obtain ⟨id, dependsOn, action⟩ := i
  cases h with
  | action h =>
    cases h with
    | assign he hslot => exact ⟨_, _, rfl, he, .store _⟩
    | emit he hi hj => exact ⟨_, _, rfl, he, .emit _ _⟩
    | abort => exact ⟨[], _, rfl, .nil, .abort⟩
    | raise hi => exact ⟨[], _, rfl, .nil, .raise _⟩
    | transition hi => exact ⟨[], _, rfl, .nil, .transition _⟩
  | branch haction hc =>
    obtain rfl : action = _ := haction
    exact ⟨_, _, rfl, hc, .jumpIfFalse _⟩

lemma Op.Closes.balanced (h : op.Closes n exits) (hrest : ∀ k ∈ exits, Balanced t 0 (rest.drop k)) :
    Balanced t n (op :: rest) := by
  have hnext : Balanced t 0 rest := by
    have hzero : 0 ∈ exits := by cases h <;> simp
    simpa using hrest 0 hzero
  cases h with
  | store slot => cases slot <;> exact .plain rfl rfl hnext
  | emit component timeId => exact .plain rfl rfl hnext
  | abort => exact .plain rfl rfl hnext
  | raise i => exact .plain rfl rfl hnext
  | transition next => exact .plain rfl rfl hnext
  | jumpIfFalse offset => exact .jumpIfFalse hnext (hrest offset (by simp))

/-- **Nothing is on the stack where only whole instructions are left.** -/
theorem Ahead.balanced {ops : List Op} (h : Ahead p (t.scope s) ops) : Balanced t 0 ops := by
  induction h with
  | complete => exact .complete
  | jump _ ih => exact .jump ih
  | instruction hi hcode _ ih =>
    obtain ⟨values, op, rfl, hvalues, hcloses⟩ := hcode.exists_closes
    rw [List.append_assoc]
    refine hvalues.balanced ?_
    rw [Nat.zero_add]
    exact hcloses.balanced ih

theorem StepCode.ahead {g : Scope} {steps : List Step} {code : List Op}
    (h : StepCode p g steps code) (hrest : Ahead p g rest) : Ahead p g (code ++ rest) := by
  induction h generalizing rest with
  | nil => exact hrest
  | run hi hcode _ ih =>
    rw [List.append_assoc]
    refine .instruction hi (.action hcode) ?_
    simpa using ih hrest
  | @ifOnly id i c y n steps rest' code yes k hi haction hc _ _ ihyes ih =>
    have happend : code ++ .jumpIfFalse yes.length :: (yes ++ k) ++ rest =
        (code ++ [.jumpIfFalse yes.length]) ++ (yes ++ (k ++ rest)) := by simp
    rw [happend]
    refine .instruction hi (.branch haction hc) ?_
    simpa using ⟨ihyes (ih hrest), ih hrest⟩
  | @ifElse id i c y n steps steps' rest' code yes no k hi haction hc _ _ _ ihyes ihno ih =>
    have happend : code ++ .jumpIfFalse (yes.length + 1) :: (yes ++ .jump no.length :: (no ++ k)) ++
        rest = (code ++ [.jumpIfFalse (yes.length + 1)]) ++
          (yes ++ .jump no.length :: (no ++ (k ++ rest))) := by simp
    rw [happend]
    refine .instruction hi (.branch haction hc) ?_
    -- the first arm ends with a jump over the second one
    have hjump : Ahead p g (.jump no.length :: (no ++ (k ++ rest))) :=
      .jump (by rw [List.drop_left]; exact ih hrest)
    simpa [drop_then] using ⟨ihyes hjump, ihno (ih hrest)⟩

/-- The depth of the stack is determined by the operations that are left. -/
theorem Balanced.unique {ops : List Op} {depth depth' : ℕ} (h : Balanced t depth ops)
    (h' : Balanced t depth' ops) : depth = depth' := by
  induction h generalizing depth' with
  | complete =>
    cases h' with
    | complete => rfl
    | plain h => cases h
  | jump _ ih => exact ih h'.jump_inv
  | jumpIfFalse _ _ ihyes _ =>
    obtain ⟨hpos, hyes, -⟩ := h'.jumpIfFalse_inv
    have := ihyes hyes
    omega
  | plain heffect hdepth _ ih =>
    obtain ⟨hle, hrest⟩ := h'.plain_inv heffect
    have := ih hrest
    omega

end

/-! ### Through the code of an instruction -/

namespace Machine

variable {c : Code} {s : StateCode} {t : FunctionTable} {limit : ℕ} {r r' : Registers}
  {w w' : Storage} {op : Op} {turn : Turn} {f g : Frame} {values rest : List Op}

lemma go_of_computes (hop : op.computes = true)
    (hact : act c s (Stepper.host c (c.resolved t)) limit op r w = (turn, r', w'))
    (hfine : ∀ e, turn ≠ .fail e) :
    ∃ skip, turn = .go skip ∧ (skip = 0 ∨ op.offset? = some skip) := by
  have hpush : ∀ r v, (push limit r v).1 = turn → turn = .go 0 := by
    intro r v h
    unfold push at h
    split at h
    · exact absurd h.symm (hfine _)
    · exact h.symm
  have hcall : ∀ function arity names,
      (call (Stepper.host c (c.resolved t)) limit function arity names r w).1 = turn →
        turn = .go 0 := by
    intro function arity names h
    unfold call at h
    split at h
    · exact absurd h.symm (hfine _)
    · split at h
      · exact absurd h.symm (hfine _)
      · split at h
        · exact absurd h.symm (hfine _)
        · exact hpush _ _ h
  have hturn : (act c s (Stepper.host c (c.resolved t)) limit op r w).1 = turn := by rw [hact]
  cases op with
  | call function arity keywords =>
    refine ⟨0, ?_, .inl rfl⟩
    cases keywords with
    | none => exact hcall function arity [] hturn
    | some k =>
      rw [act] at hturn
      split at hturn
      · exact absurd hturn.symm (hfine _)
      · exact hcall function arity _ hturn
  | jump offset => exact ⟨offset, hturn.symm, .inr rfl⟩
  | jumpIfFalse offset => grind [act, Op.offset?]
  | literal i => exact ⟨0, by grind [act], .inl rfl⟩
  | loadPersistent slot => exact ⟨0, by grind [act], .inl rfl⟩
  | loadLocal slot => exact ⟨0, by grind [act], .inl rfl⟩
  | unary op => exact ⟨0, by grind [act], .inl rfl⟩
  | binary op => exact ⟨0, by grind [act], .inl rfl⟩
  | storePersistent slot => cases hop
  | storeLocal slot => cases hop
  | emit component timeId => cases hop
  | abort => cases hop
  | raise i => cases hop
  | transition next => cases hop
  | complete => cases hop

lemma stays_of_exprCode {literals : List Value} {es : List Expr}
    (hvalues : ExprCode literals (c.scope s) es values)
    (hcode : s.ops.toList.drop f.ip = values ++ rest) (hle : f.ip ≤ g.ip)
    (hlt : g.ip < f.ip + values.length) {hip : g.ip < s.ops.size}
    (hact : act c s (Stepper.host c (c.resolved t)) limit s.ops[g.ip] g.toRegisters w =
      (turn, r', w')) (hfine : ∀ e, turn ≠ .fail e) :
    ∃ skip, turn = .go skip ∧ g.ip + 1 + skip ≤ f.ip + values.length := by
  have hop : values[g.ip - f.ip]? = some s.ops[g.ip] := by
    rw [← getElem?_of_drop_eq hcode (by omega), Nat.add_sub_cancel' hle,
      Array.getElem?_eq_getElem hip]
  have hcomputes := hvalues.computes _ (List.mem_of_getElem? hop)
  obtain ⟨skip, rfl, hskip⟩ := go_of_computes hcomputes hact hfine
  refine ⟨skip, rfl, ?_⟩
  rcases hskip with rfl | hskip
  · omega
  · have hfits : Fits c.toTables s.locals.size 0 values := hvalues.fits
    have hinside := (hfits.getElem? hop).2.2 skip hskip
    omega

variable (c s limit) in
lemma act_of_closes {n : ℕ} {exits : List ℕ} (h : op.Closes n exits) {host : Host Storage}
    (hr : r.stack.length = n) (hact : act c s host limit op r w = (turn, r', w')) :
    turn ≠ .fail (.stackOverflow limit) ∧ ((∀ e, turn ≠ .fail e) → r'.stack = []) ∧
      ∀ skip, turn.skip? = some skip → skip ∈ exits := by
  obtain ⟨stack, locals, transition⟩ := r
  cases h with
  | store slot =>
    obtain ⟨v, rfl⟩ := List.length_eq_one_iff.1 hr
    cases slot with
    | persistent i => grind [act, Lowering.Slot.store, Turn.skip?]
    | ofState i => grind [act, Lowering.Slot.store, Turn.skip?]
  | emit component timeId =>
    obtain ⟨v, time, rfl⟩ := List.length_eq_two.1 hr
    grind [act, Turn.skip?]
  | abort => grind [act, Turn.skip?]
  | raise i => grind [act, Turn.skip?]
  | transition next => grind [act, Turn.skip?]
  | jumpIfFalse offset =>
    obtain ⟨v, rfl⟩ := List.length_eq_one_iff.1 hr
    grind [act, Turn.skip?]

lemma place_in_code (hcode : s.ops.toList.drop f.ip = (values ++ [op]) ++ rest)
    (hlt : g.ip < f.ip + (values ++ [op]).length) :
    g.ip < f.ip + values.length ∨ s.ops.toList.drop g.ip = op :: rest := by
  rw [List.length_append, List.length_singleton] at hlt
  rcases Nat.lt_or_ge g.ip (f.ip + values.length) with h | h
  · exact .inl h
  · have hg : g.ip = f.ip + values.length := by omega
    rw [hg, ← List.drop_drop, hcode, List.append_assoc, List.drop_left]
    exact .inr rfl

end Machine

/-! ### Where instructions begin -/

lemma Ahead.stack_eq_nil {p : Program} {c : Code} {s : StateCode} {f : Frame}
    (h : Ahead p (c.scope s) (s.ops.toList.drop f.ip))
    (hf : f.toRegisters.Safe c s (s.ops.toList.drop f.ip)) : f.stack = [] :=
  List.eq_nil_of_length_eq_zero (hf.balanced.unique h.balanced)

structure Begins (p : Program) (c : Code) (s : StateCode) (f : Frame) (i : Instruction)
    (code : List Op) : Prop where
  registered : ∃ id, p.instructions.get? id = some i
  stands : ∃ exits rest, InstructionCode p (c.scope s) i code exits ∧
    s.ops.toList.drop f.ip = code ++ rest ∧ ∀ k ∈ exits, Ahead p (c.scope s) (rest.drop k)

namespace Begins

open Machine

variable {p : Program} {c : Code} {s : StateCode} {t : FunctionTable} {limit : ℕ} {f g : Frame}
  {i : Instruction} {code : List Op} {w w' : Storage} {r : Registers}

lemma ahead (h : Begins p c s f i code) : Ahead p (c.scope s) (s.ops.toList.drop f.ip) := by
  obtain ⟨id, hi⟩ := h.registered
  obtain ⟨exits, rest, hcode, hdrop, hahead⟩ := h.stands
  rw [hdrop]
  exact .instruction hi hcode hahead

lemma length_pos (h : Begins p c s f i code) : 0 < code.length := by
  obtain ⟨exits, rest, hcode, -, -⟩ := h.stands
  obtain ⟨values, op, rfl, -, -⟩ := hcode.exists_closes
  simp

lemma length_at_end {op : Op} {rest : List Op} {n : ℕ} {exits : List ℕ}
    (hcloses : op.Closes n exits)
    (hahead : ∀ k ∈ exits, Ahead p (c.scope s) (rest.drop k))
    (hg : g.toRegisters.Safe c s (s.ops.toList.drop g.ip))
    (hdrop : s.ops.toList.drop g.ip = op :: rest) : g.stack.length = n := by
  have hbalanced := hg.balanced
  rw [hdrop] at hbalanced
  exact hbalanced.unique (hcloses.balanced fun k hk => (hahead k hk).balanced)

/-- **Behind an instruction that does not fail nothing is on the stack.** -/
theorem stack_eq_nil_of_leaves (h : Begins p c s f i code) (hsafe : SafeFrom c s t limit f w)
    (hleaves : Leaves c s (Stepper.host c (c.resolved t)) limit code.length f w r) :
    r.stack = [] := by
  obtain ⟨exits, rest, hcode, hdrop, hahead⟩ := h.stands
  obtain ⟨values, op, rfl, hvalues, hcloses⟩ := hcode.exists_closes
  obtain ⟨g, w', w'', turn, hip, hvisits, hlt, hact, hfine, hpast⟩ := hleaves
  rcases place_in_code hdrop hlt with hinside | hlast
  · rw [List.append_assoc] at hdrop
    -- the values are not left, so the run is not past the last operation
    obtain ⟨skip, rfl, hstays⟩ := stays_of_exprCode hvalues hdrop hvisits.ip_le hinside hact hfine
    have hpast := hpast skip rfl
    rw [List.length_append, List.length_singleton] at hpast
    omega
  · obtain ⟨_, hop, -⟩ := getElem_of_drop_eq_cons hlast
    rw [hop] at hact
    exact (act_of_closes c s limit hcloses (length_at_end hcloses hahead (hsafe hvisits) hlast)
      hact).2.1 hfine

/-- From within an instruction, a run stays within it or goes where only whole instructions are
left. -/
lemma next (h : Begins p c s f i code) (hsafe : SafeFrom c s t limit f w)
    (hvisits : Visits c s (Stepper.host c (c.resolved t)) limit f w g w')
    (hlt : g.ip < f.ip + code.length) {hip : g.ip < s.ops.size} {turn : Turn} {w'' : Storage}
    {skip : ℕ}
    (hact : act c s (Stepper.host c (c.resolved t)) limit s.ops[g.ip] g.toRegisters w' =
      (turn, r, w'')) (hturn : turn.skip? = some skip) :
    g.ip + 1 + skip < f.ip + code.length ∨
      Ahead p (c.scope s) (s.ops.toList.drop (g.ip + 1 + skip)) := by
  obtain ⟨exits, rest, hcode, hdrop, hahead⟩ := h.stands
  obtain ⟨values, op, rfl, hvalues, hcloses⟩ := hcode.exists_closes
  rcases place_in_code hdrop hlt with hinside | hlast
  · have hfine : ∀ e, turn ≠ .fail e := by
      rintro e rfl
      cases hturn
    rw [List.append_assoc] at hdrop
    obtain ⟨skip', rfl, hstays⟩ :=
      stays_of_exprCode hvalues hdrop hvisits.ip_le hinside hact hfine
    cases hturn
    rw [List.length_append, List.length_singleton]
    exact .inl (by omega)
  · obtain ⟨_, hop, hrest⟩ := getElem_of_drop_eq_cons hlast
    rw [hop] at hact
    have hmem := (act_of_closes c s limit hcloses
      (length_at_end hcloses hahead (hsafe hvisits) hlast) hact).2.2 skip hturn
    rw [← List.drop_drop, hrest]
    exact .inr (hahead skip hmem)

end Begins

namespace Ahead

open Machine

variable {p : Program} {c : Code} {s : StateCode} {f : Frame}

/-- Where only whole instructions are left, one begins, or there is a jump, or the state ends. -/
lemma begins_or (h : Ahead p (c.scope s) (s.ops.toList.drop f.ip)) :
    (∃ i code, Begins p c s f i code) ∨
      (∃ k, s.ops[f.ip]? = some (.jump k) ∧
        Ahead p (c.scope s) (s.ops.toList.drop (f.ip + 1 + k))) ∨
      s.ops[f.ip]? = some .complete := by
  generalize hops : s.ops.toList.drop f.ip = ops at h
  cases h with
  | complete =>
    obtain ⟨hip, hop, -⟩ := getElem_of_drop_eq_cons hops
    exact .inr (.inr (by rw [Array.getElem?_eq_getElem hip, hop]))
  | @jump offset rest h =>
    obtain ⟨hip, hop, hrest⟩ := getElem_of_drop_eq_cons hops
    rw [← hrest, List.drop_drop] at h
    exact .inr (.inl ⟨offset, by rw [Array.getElem?_eq_getElem hip, hop], h⟩)
  | instruction hi hcode h => exact .inl ⟨_, _, ⟨_, hi⟩, _, _, hcode, hops, h⟩

end Ahead

def Machine.Inside (p : Program) (c : Code) (s : StateCode) (host : Host Storage) (limit : ℕ)
    (f₀ : Frame) (w₀ : Storage) (f : Frame) (w : Storage) : Prop :=
  ∃ (f' : Frame) (w' : Storage) (i : Instruction) (code : List Op),
    Visits c s host limit f₀ w₀ f' w' ∧ Begins p c s f' i code ∧ Visits c s host limit f' w' f w ∧
      f.ip < f'.ip + code.length

section

open Machine

variable {p : Program} {c : Code} {s : StateCode} {t : FunctionTable} {limit : ℕ} {f₀ f : Frame}
  {w₀ w : Storage}

/-- **A run is always within an instruction or between two.** -/
theorem Machine.Visits.ahead_or_inside (hsafe : SafeFrom c s t limit f₀ w₀)
    (hstart : Ahead p (c.scope s) (s.ops.toList.drop f₀.ip))
    (h : Visits c s (Stepper.host c (c.resolved t)) limit f₀ w₀ f w) :
    Ahead p (c.scope s) (s.ops.toList.drop f.ip) ∨
      Inside p c s (Stepper.host c (c.resolved t)) limit f₀ w₀ f w := by
  induction h with
  | here => exact .inl hstart
  | @next f w w₁ turn r skip h hip hact hturn ih =>
    -- an operation of an instruction that begins at a frame before this one
    have hwithin : ∀ {f' w' i code}, Visits c s (Stepper.host c (c.resolved t)) limit f₀ w₀ f' w' →
        Begins p c s f' i code → Visits c s (Stepper.host c (c.resolved t)) limit f' w' f w →
        f.ip < f'.ip + code.length →
        Ahead p (c.scope s) (s.ops.toList.drop (f.ip + 1 + skip)) ∨
          Inside p c s (Stepper.host c (c.resolved t)) limit f₀ w₀
            ⟨r, f.state, f.ip + 1 + skip⟩ w₁ := by
      intro f' w' i code hbefore hbegins hvisits hlt
      rcases hbegins.next (hsafe.of_visits hbefore) hvisits hlt hact hturn with hinside | hahead
      · exact .inr ⟨f', w', i, code, hbefore, hbegins, hvisits.next hip hact hturn, hinside⟩
      · exact .inl hahead
    rcases ih with hahead | ⟨f', w', i, code, hbefore, hbegins, hvisits, hlt⟩
    · rcases hahead.begins_or with ⟨i, code, hbegins⟩ | ⟨k, hop, hahead⟩ | hop
      · have hpos := hbegins.length_pos
        exact hwithin h hbegins .here (by omega)
      · obtain ⟨_, hop⟩ := Array.getElem?_eq_some_iff.1 hop
        rw [hop] at hact
        cases hact
        cases hturn
        exact .inl hahead
      · obtain ⟨_, hop⟩ := Array.getElem?_eq_some_iff.1 hop
        rw [hop] at hact
        cases hact
        cases hturn
    · exact hwithin hbefore hbegins hvisits hlt

end

/-! ### Evaluation and execution -/

def Code.memory (c : Code) (s : StateCode) (r : Registers) (w : Storage) : Memory where
  persistent := c.contents w
  ofState x := (s.locals.slot? x).bind fun i => r.locals[i]?.join
  transition := r.transition.bind fun i => (c.state? i).map StateCode.name

section

open Machine

variable {p : Program} {c : Code} {s : StateCode} {t : FunctionTable} {limit : ℕ} {f : Frame}
  {r : Registers} {w : Storage} {i : Instruction} {code : List Op}

lemma Registers.Safe.mirrors (hc : c.Sound) {ops : List Op} (hr : r.Safe c s ops) (w : Storage) :
    Mirrors c s w (c.memory s r w) r w := by
  refine ⟨⟨fun _ => rfl, fun _ _ => rfl⟩, hr.size, fun x i hi => ?_, ?_⟩
  · have hlt : i < r.locals.size := hr.size ▸ SymbolTable.slot?_lt hi
    simp [Code.memory, hi, Array.getElem?_eq_getElem hlt]
  · cases htransition : r.transition with
    | none => simp [Code.memory, htransition]
    | some i =>
      obtain ⟨sc, hsc⟩ := Code.exists_state? (hr.transition i htransition)
      have hplace : c.stateIndex? sc.name = some i :=
        (Roster.place?_eq_some_iff_getElem? _ _ _).2 (hc.name i sc hsc)
      simp [Code.memory, htransition, hsc, hplace]

variable (c s t limit w) in
lemma Op.Closes.play_roomy {n : ℕ} {exits : List ℕ} {op : Op} (h : op.Closes n exits)
    (hr : r.stack.length = n) :
    (playWith c s t limit [op] r w).result ≠ .error (.stackOverflow limit) := by
  rcases hact : act c s (Stepper.host c (c.resolved t)) limit op r w with ⟨turn, r', w'⟩
  have hne := (act_of_closes c s limit h hr hact).1
  rw [playWith, play, hact]
  rcases turn with skip | y | e
  · simp [play]
  · cases y <;> simp [play, Trace.after]
  · simpa using hne

variable (limit) in
/-- **The code of an instruction evaluates its expressions** and then carries out one operation. -/
theorem Begins.play_eq (h : Begins p c s f i code)
    (hresolved : ∀ f ∈ c.functions.symbols.keys, (t.resolve? f).isSome)
    (hm : Mirrors c s w (c.memory s f.toRegisters w) f.toRegisters w) (hstack : f.stack = []) :
    ∃ exits op, op.Closes i.expressions.length exits ∧
      playWith c s t limit code f.toRegisters w =
        Trace.given (Expr.evalAllIn ⟨t, c.read, limit⟩ (c.memory s f.toRegisters w) i.expressions 0)
          w fun vs => playWith c s t limit [op] { f.toRegisters with stack := vs.reverse } w := by
  obtain ⟨exits, rest, hcode, -, -⟩ := h.stands
  obtain ⟨values, op, rfl, hvalues, hcloses⟩ := hcode.exists_closes
  refine ⟨exits, op, hcloses, ?_⟩
  have hplay := hvalues.play_eq (g := ⟨t, c.read, limit⟩) (fun _ _ _ => rfl) hresolved hm [op]
  rw [hstack, List.length_nil] at hplay
  simpa only [List.append_nil] using hplay

lemma Begins.fails_iff (h : Begins p c s f i code) {e : MachineError} :
    Fails c s (Stepper.host c (c.resolved t)) limit code.length f w e ↔
      (playWith c s t limit code f.toRegisters w).result = .error e := by
  obtain ⟨exits, rest, -, hdrop, -⟩ := h.stands
  exact Machine.fails_iff hdrop

lemma ExprCode.mapLiterals_eq_self {read : Value → Value} {literals : List Value} {g : Scope}
    {es : List Expr} (hread : ∀ v ∈ literals, g.read v ∈ literals → read v = v)
    (h : ExprCode literals g es code) : ∀ e ∈ es, e.mapLiterals read = e := by
  induction h with
  | nil => simp
  | literal _ hv hmem _ ih =>
    exact List.forall_mem_cons.2 ⟨by rw [Expr.mapLiterals, hread _ hv hmem], ih⟩
  | var _ _ ih => exact List.forall_mem_cons.2 ⟨rfl, ih⟩
  | unary _ _ ihx ih => exact List.forall_mem_cons.2 ⟨by simpa [Expr.mapLiterals] using ihx, ih⟩
  | binary _ _ ihlr ih => exact List.forall_mem_cons.2 ⟨by simpa [Expr.mapLiterals] using ihlr, ih⟩
  | @call f args keywords _ _ _ _ _ _ _ _ _ ihargs ih =>
    refine List.forall_mem_cons.2 ⟨?_, ih⟩
    obtain ⟨hargs, hkeywords⟩ := List.forall_mem_append.1 ihargs
    have hargs' : args.map (Expr.mapLiterals read) = args :=
      (List.map_congr_left hargs).trans (List.map_id args)
    have hkeywords' : keywords.map (fun e => (e.1, e.2.mapLiterals read)) = keywords := by
      refine (List.map_congr_left fun e he => ?_).trans (List.map_id keywords)
      rw [hkeywords e.2 (List.mem_map_of_mem he)]
      rfl
    rw [Expr.mapLiterals, Expr.mapAllLiterals_eq, Expr.mapKeywordLiterals_eq, hargs', hkeywords']
  | cond _ _ _ _ ihc ihy ihn ih =>
    refine List.forall_mem_cons.2 ⟨?_, ih⟩
    simp only [List.mem_singleton, forall_eq] at ihc ihy ihn
    rw [Expr.mapLiterals, ihc, ihy, ihn]

lemma Begins.mapLiterals_eq_self (h : Begins p c s f i code)
    (hliterals : ∀ u ∈ p.literals, ∀ v ∈ p.literals, (u == v) = true → u = v) :
    Expr.mapAllLiterals c.read i.expressions = i.expressions := by
  obtain ⟨exits, rest, hcode, -, -⟩ := h.stands
  obtain ⟨values, op, -, hvalues, -⟩ := hcode.exists_closes
  rw [Expr.mapAllLiterals_eq]
  refine (List.map_congr_left fun e he => ?_).trans (List.map_id _)
  exact hvalues.mapLiterals_eq_self (fun v hv hmem => Tables.read_eq_self hliterals hv hmem) e he

end

namespace Machine

/-- An instruction keeps to the bound of the stack exactly. It finds the stack empty. With as much
room as it needs it does not run out of stack. With less it does, if it is evaluated whole and
nothing else is wrong with it. If it does not fail, it leaves the stack empty. -/
structure Exact (c : Code) (s : StateCode) (t : FunctionTable) (limit : ℕ) (f : Frame) (w : Storage)
    (i : Instruction) (length : ℕ) : Prop where
  before : f.stack = []
  enough : i.need ≤ limit →
    ¬Fails c s (Stepper.host c (c.resolved t)) limit length f w (.stackOverflow limit)
  short : limit < i.need → i.isStraight = true → ∀ vs,
    Expr.evalAll t (c.memory s f.toRegisters w)
      (Expr.mapAllLiterals c.read i.expressions) = .ok vs →
        Fails c s (Stepper.host c (c.resolved t)) limit length f w (.stackOverflow limit)
  after : ∀ r, Leaves c s (Stepper.host c (c.resolved t)) limit length f w r → r.stack = []

variable {p : Program} {c : Code} {s : StateCode} {t : FunctionTable} {limit : ℕ} {f : Frame}
  {w : Storage} {i : Instruction} {code : List Op}

/-- **Instructions keep to the bound of the stack exactly.** -/
theorem exact_of_begins (hc : c.Sound)
    (hresolved : ∀ f ∈ c.functions.symbols.keys, (t.resolve? f).isSome)
    (hsafe : SafeFrom c s t limit f w) (h : Begins p c s f i code) :
    Exact c s t limit f w i code.length := by
  have hempty : f.stack = [] := h.ahead.stack_eq_nil (hsafe .here)
  have hm := (hsafe .here).mirrors hc w
  refine ⟨hempty, fun hneed => ?_, fun hneed hstraight vs hvs => ?_, fun r hleaves =>
    h.stack_eq_nil_of_leaves hsafe hleaves⟩
  · rw [h.fails_iff]
    obtain ⟨exits, op, hcloses, hplay⟩ := h.play_eq limit hresolved hm hempty
    have hroom : 0 + i.need ≤ limit := by omega
    have hroomy : Expr.Roomy limit (Expr.evalAllIn ⟨t, c.read, limit⟩
        (c.memory s f.toRegisters w) i.expressions 0) :=
      Expr.roomy_evalAllIn (g := ⟨t, c.read, limit⟩) i.expressions 0 0 hroom
    rw [hplay]
    cases heval : Expr.evalAllIn ⟨t, c.read, limit⟩ (c.memory s f.toRegisters w)
        i.expressions 0 with
    | error e =>
      rw [heval] at hroomy
      rintro ⟨⟩
      exact hroomy rfl
    | ok vs =>
      refine hcloses.play_roomy c s t limit w ?_
      rw [List.length_reverse]
      exact Expr.length_evalAllIn heval
  · rw [h.fails_iff]
    obtain ⟨exits, op, -, hplay⟩ := h.play_eq limit hresolved hm hempty
    have hfull := Expr.evalAllIn_eq_overflow (g := ⟨t, c.read, limit⟩) hstraight hneed hvs
    rw [hplay, hfull]
    rfl

end Machine

lemma StateCode.Of.ahead {p : Program} {t : Tables} {st : State} {sc : StateCode}
    (h : sc.Of p t st) : Ahead p (t.scope sc) sc.ops.toList := by
  obtain ⟨steps, body, -, hcode, hops⟩ := h.ops
  rw [hops]
  exact hcode.ahead .complete

lemma StateCode.Of.exists_begins {p : Program} {c : Code} {st : State} {sc : StateCode}
    (h : sc.Of p c.toTables st) {op : Op} (hop : sc.ops[0]? = some op) (hjump : ∀ k, op ≠ .jump k)
    (hcomplete : op ≠ .complete) (state : ℕ) :
    ∃ i code, Begins p c sc (sc.frame state) i code ∧ i ∈ p.instructions.toList := by
  have hahead : Ahead p (c.scope sc) (sc.ops.toList.drop (sc.frame state).ip) := h.ahead
  rcases hahead.begins_or with ⟨i, code, hbegins⟩ | ⟨k, hop', -⟩ | hop'
  · obtain ⟨id, hi⟩ := hbegins.registered
    exact ⟨i, code, hbegins, (Roster.mem_values_iff _ _).2 ⟨id, hi⟩⟩
  · exact absurd (Option.some.inj (hop.symm.trans hop')) (hjump k)
  · exact absurd (Option.some.inj (hop.symm.trans hop')) hcomplete

/-- **The bound of the stack is exact.** Wherever a run of a state comes by, there are not more
values on the stack than the bound, and also not where it stops. The run is within an instruction
that it has come to at its beginning, or it is at a jump or at the end of the state and the stack is
empty. If it fails from there on, it ends with that failure. Where an instruction begins, it keeps
to the bound exactly, with its literals as they read in code; and they read as they are written if
equal literals of the program are identical. -/
theorem stack_bound_exact {instructions : InstructionSet} {states : List State} {initial : String}
    {p : Program} (hp : Program.create instructions states initial = .ok p)
    {reserved : List String} {c : Code} (hc : Code.ofProgram reserved p = .ok c)
    {t : FunctionTable} (hresolved : ∀ f ∈ c.functions.symbols.keys, (t.resolve? f).isSome)
    (limit : ℕ) {state : ℕ} {sc : StateCode} (hsc : c.state? state = some sc) (w₀ : Storage)
    {f : Frame} {w : Storage}
    (hf : Machine.Visits c sc (Stepper.host c (c.resolved t)) limit (sc.frame state) w₀ f w) :
    let host := Stepper.host c (c.resolved t)
    f.stack.length ≤ limit ∧ (Machine.resume c host limit f w).2.1.stack.length ≤ limit ∧
    (Machine.Inside p c sc host limit (sc.frame state) w₀ f w ∨
      f.stack = [] ∧ ((∃ k, sc.ops[f.ip]? = some (.jump k)) ∨ sc.ops[f.ip]? = some .complete)) ∧
    (∀ n e, Machine.Fails c sc host limit n f w e →
      (Machine.drive c host limit (sc.frame state) w₀).result = .error e) ∧
    ∀ i code, Begins p c sc f i code → Machine.Exact c sc t limit f w i code.length ∧
      ((∀ u ∈ p.literals, ∀ v ∈ p.literals, (u == v) = true → u = v) →
        Expr.mapAllLiterals c.read i.expressions = i.expressions) := by
  have hacc := Program.accepted_of_create hp
  have hof := Code.of_ofProgram hacc.name_eq hc
  have hsound := hof.sound hacc
  obtain ⟨st, -, hst⟩ := hof.exists_state hsc
  have hstart : (sc.frame state).toRegisters.Safe c sc (sc.ops.toList.drop (sc.frame state).ip) :=
    ⟨by simp [StateCode.frame], by simp [StateCode.frame], (hsound.state state sc hsc).balanced⟩
  have hsafe : Machine.SafeFrom c sc t limit (sc.frame state) w₀ :=
    Machine.safeFrom_of_sound hsound hresolved limit w₀ hsc hstart
  have hlength : f.stack.length ≤ limit := hf.length_le (Nat.zero_le limit)
  refine ⟨hlength, Machine.length_resume_le c _ hlength w, ?_,
    fun n e => hf.drive_eq_error hsc, fun i code hbegins => ⟨?_, hbegins.mapLiterals_eq_self⟩⟩
  · rcases hf.ahead_or_inside hsafe hst.ahead with hahead | hinside
    · rcases hahead.begins_or with ⟨i, code, hbegins⟩ | ⟨k, hop, -⟩ | hop
      · have hpos := hbegins.length_pos
        exact .inl ⟨f, w, i, code, hf, hbegins, .here, by omega⟩
      · exact .inr ⟨hahead.stack_eq_nil (hsafe hf), .inl ⟨k, hop⟩⟩
      · exact .inr ⟨hahead.stack_eq_nil (hsafe hf), .inr hop⟩
    · exact .inl hinside
  · exact Machine.exact_of_begins hsound hresolved (hsafe.of_visits hf) hbegins

def showSum : InstructionSet :=
  (InstructionSet.empty.addAll [
    ⟨"show", ∅, .emit (.var "<t>") "now" (.call "<func>f" [.var "<t>"]
      [("h", .binary .add (.literal (.scalar 1)) (.var "<dt>"))]) "y"⟩]).toOption.getD .empty

/-- The instruction needs a stack of four values, and three are too few for it. -/
theorem stack_bound_exact_showSum :
    ∃ (p : Program) (c : Code) (sc : StateCode) (i : Instruction) (code : List Op),
    Program.create showSum [⟨"s", ["show"], "s"⟩] "s" = .ok p ∧
    Code.ofProgram defaultReserved p = .ok c ∧
    (∀ f ∈ c.functions.symbols.keys, (sumTable.resolve? f).isSome) ∧ c.state? 0 = some sc ∧
    Begins p c sc (sc.frame 0) i code ∧ i.need = 4 ∧
    let host := Stepper.host c (c.resolved sumTable)
    let w : Storage := ⟨#[some (.scalar 0), some (.scalar 1)]⟩
    (Machine.drive c host 3 (sc.frame 0) w).result = .error (.stackOverflow 3) ∧
    ¬Machine.Fails c sc host 4 code.length (sc.frame 0) w (.stackOverflow 4) ∧
    Expr.mapAllLiterals c.read i.expressions = i.expressions := by
  have hsome : ((Program.create showSum [⟨"s", ["show"], "s"⟩] "s").toOption.bind fun p =>
      (Code.ofProgram defaultReserved p).toOption.bind fun c => (c.state? 0).bind fun sc =>
        if (∀ f ∈ c.functions.symbols.keys, (sumTable.resolve? f).isSome) ∧
          sc.ops[0]? = some (.loadPersistent 0) ∧
          (∀ i ∈ p.instructions.toList, i.need = 4 ∧ i.isStraight = true ∧
            (Expr.evalAll sumTable (c.memory sc (sc.frame 0).toRegisters
              ⟨#[some (.scalar 0), some (.scalar 1)]⟩)
              (Expr.mapAllLiterals c.read i.expressions)).toOption.isSome = true) ∧
          ∀ u ∈ p.literals, ∀ v ∈ p.literals, (u == v) = true → u = v
        then some () else none) = some () := by
    decide +kernel
  obtain ⟨p, hp, hsome⟩ := Option.bind_eq_some_iff.1 hsome
  obtain ⟨c, hc, hsome⟩ := Option.bind_eq_some_iff.1 hsome
  obtain ⟨sc, hsc, hsome⟩ := Option.bind_eq_some_iff.1 hsome
  rw [toOption_eq_some] at hp hc
  obtain ⟨hresolved, hfirst, hall, hliterals⟩ := (Option.ite_none_right_eq_some.1 hsome).1
  have hof := Code.of_ofProgram (Program.accepted_of_create hp).name_eq hc
  obtain ⟨st, -, hst⟩ := hof.exists_state hsc
  obtain ⟨i, code, hbegins, hi⟩ := hst.exists_begins hfirst (by simp) (by simp) 0
  obtain ⟨hneed, hstraight, hvalues⟩ := hall i hi
  obtain ⟨vs, hvs⟩ := Option.isSome_iff_exists.1 hvalues
  obtain ⟨-, -, -, hends, hthree⟩ := stack_bound_exact hp hc hresolved 3 hsc
    ⟨#[some (.scalar 0), some (.scalar 1)]⟩ .here
  obtain ⟨-, -, -, -, hfour⟩ := stack_bound_exact hp hc hresolved 4 hsc
    ⟨#[some (.scalar 0), some (.scalar 1)]⟩ .here
  obtain ⟨hexact, hwritten⟩ := hthree i code hbegins
  exact ⟨p, c, sc, i, code, hp, hc, hresolved, hsc, hbegins, hneed,
    hends _ _ (hexact.short (by omega) hstraight vs (toOption_eq_some.1 hvs)),
    (hfour i code hbegins).1.enough (by omega), hwritten hliterals⟩

/-- A condition is compared with a sum, which needs more stack. The condition holds as soon as its
first part does, and that is so as the quotient by a negative zero is below zero. -/
def judgeSum : InstructionSet :=
  let one : Expr := .literal (.scalar 1)
  let below : Expr :=
    .binary .gt (.literal (.scalar 0)) (.binary .div one (.literal (.scalar (-0))))
  (InstructionSet.empty.addAll [
    ⟨"judge", ∅, .assign "<p>y" (.binary .eq (.binary .or below (.literal (.vector [1])))
      (.binary .add one (.binary .add one one)))⟩]).toOption.getD .empty

/-- A stack of three values is too small for the instruction, and as it is written nothing else is
wrong with it. But its negative zero reads as the positive one, and it fails for another reason
before it runs out of stack. -/
theorem negative_zero_fails_before_overflow :
    ∃ (p : Program) (c : Code) (sc : StateCode) (i : Instruction) (code : List Op),
    Program.create judgeSum [⟨"s", ["judge"], "s"⟩] "s" = .ok p ∧
    Code.ofProgram defaultReserved p = .ok c ∧ c.state? 0 = some sc ∧
    Begins p c sc (sc.frame 0) i code ∧ 3 < i.need ∧ i.isStraight = true ∧
    let host := Stepper.host c (c.resolved .empty)
    let w : Storage := ⟨#[some (.scalar 0), some (.scalar 1), none]⟩
    (∃ vs, Expr.evalAll .empty (c.memory sc (sc.frame 0).toRegisters w) i.expressions = .ok vs) ∧
    (Machine.drive c host 3 (sc.frame 0) w).result = .error (.typeMismatch (.notABoolean .vector)) ∧
    ¬Machine.Fails c sc host 3 code.length (sc.frame 0) w (.stackOverflow 3) := by
  have hsome : ((Program.create judgeSum [⟨"s", ["judge"], "s"⟩] "s").toOption.bind fun p =>
      (Code.ofProgram defaultReserved p).toOption.bind fun c => (c.state? 0).bind fun sc =>
        if sc.ops[0]? = some (.literal 0) ∧
          (∀ i ∈ p.instructions.toList, 3 < i.need ∧ i.isStraight = true ∧
            (Expr.evalAll .empty (c.memory sc (sc.frame 0).toRegisters
              ⟨#[some (.scalar 0), some (.scalar 1), none]⟩) i.expressions).toOption.isSome = true)
        then
          match (Machine.resume c (Stepper.host c (c.resolved .empty)) 3 (sc.frame 0)
            ⟨#[some (.scalar 0), some (.scalar 1), none]⟩).1 with
          | .error e => some e
          | .ok _ => none
        else none) = some (.typeMismatch (.notABoolean .vector)) := by
    decide +kernel
  obtain ⟨p, hp, hsome⟩ := Option.bind_eq_some_iff.1 hsome
  obtain ⟨c, hc, hsome⟩ := Option.bind_eq_some_iff.1 hsome
  obtain ⟨sc, hsc, hsome⟩ := Option.bind_eq_some_iff.1 hsome
  rw [toOption_eq_some] at hp hc
  obtain ⟨⟨hfirst, hall⟩, hsome⟩ := Option.ite_none_right_eq_some.1 hsome
  have hof := Code.of_ofProgram (Program.accepted_of_create hp).name_eq hc
  obtain ⟨st, -, hst⟩ := hof.exists_state hsc
  obtain ⟨i, code, hbegins, hi⟩ := hst.exists_begins hfirst (by simp) (by simp) 0
  obtain ⟨hneed, hstraight, hvalues⟩ := hall i hi
  obtain ⟨vs, hvs⟩ := Option.isSome_iff_exists.1 hvalues
  have hresult : (Machine.drive c (Stepper.host c (c.resolved .empty)) 3 (sc.frame 0)
      ⟨#[some (.scalar 0), some (.scalar 1), none]⟩).result =
        .error (.typeMismatch (.notABoolean .vector)) := by
    split at hsome
    · rename_i e hresume
      obtain rfl := Option.some.inj hsome
      rw [Machine.drive_of_ended (Prod.ext hresume rfl) (by simp)]
    · cases hsome
  refine ⟨p, c, sc, i, code, hp, hc, hsc, hbegins, hneed, hstraight,
    ⟨vs, toOption_eq_some.1 hvs⟩, hresult, fun hfails => ?_⟩
  cases hresult.symm.trans (Machine.Visits.here.drive_eq_error hsc hfails)

end TimeMarch
