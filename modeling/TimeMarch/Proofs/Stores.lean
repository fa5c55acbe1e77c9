import TimeMarch.Proofs.Simulation

/-!
# What a Run Stores

The machine touches storage in two ways only: it loads the value of a slot, and it stores a value in
a slot. Here the stores of a run are written down in order. They are all that a run changes, and a
run depends on nothing else in storage than on what the slots hold. What an abandoned run has stored
stands in front of an abort.
-/

namespace TimeMarch

namespace Storage

def setAll (w : Storage) (l : List (ℕ × Value)) : Storage := l.foldl (fun w e => w.set e.1 e.2) w

lemma setAll_append (w : Storage) (l l' : List (ℕ × Value)) :
    w.setAll (l ++ l') = (w.setAll l).setAll l' :=
  List.foldl_append

lemma get?_setAll (w : Storage) (l : List (ℕ × Value)) (slot : ℕ) :
    (w.setAll l).get? slot = (l.reverse.lookup slot).or (w.get? slot) := by
  induction l generalizing w with
  | nil => rfl
  | cons e l ih =>
    obtain ⟨slot', v⟩ := e
    have hcons : w.setAll ((slot', v) :: l) = (w.set slot' v).setAll l := rfl
    rw [hcons, ih, get?_set, List.reverse_cons, List.lookup_append, Option.or_assoc]
    congr 1
    by_cases h : slot = slot'
    · simp [h]
    · simp [List.lookup_cons, beq_false_of_ne h, Ne.symm h]

end Storage

namespace Machine

/-- The slot and the value of an operation that is about to store a persistent variable. -/
def pending? (op : Op) (r : Registers) : Option (ℕ × Value) :=
  match op, r.stack with
  | .storePersistent slot, v :: _ => some (slot, v)
  | _, _ => none

/-- What the operations of a list store persistently, in order, until the run stops. -/
def stores (c : Code) (s : StateCode) (host : Host Storage) (limit : ℕ) :
    List Op → Registers → Storage → List (ℕ × Value)
  | [], _, _ => []
  | op :: rest, r, w =>
    (pending? op r).toList ++
      match act c s host limit op r w with
      | (.go skip, r, w) => stores c s host limit (rest.drop skip) r w
      | (.stop (.emitted _ _ _ _), r, w) => stores c s host limit rest r w
      | _ => []
termination_by ops => ops.length
decreasing_by all_goals simp; try omega

def Turn.result? : Turn → Option (Except MachineError Yield)
  | go _ | stop (.emitted _ _ _ _) => none
  | stop y => some (.ok y)
  | fail e => some (.error e)

lemma Turn.eq_of_result? {turn : Turn} {y : Yield} (h : turn.result? = some (.ok y)) :
    turn = .stop y := by
  unfold Turn.result? at h
  split at h <;> cases h
  rfl

section

variable {c : Code} {s : StateCode} {host : Host Storage} {limit : ℕ} {op : Op} {rest : List Op}
  {r r' : Registers} {w w' : Storage}

lemma play_emitted {component timeId : ℕ} {time : Float} {value : Value}
    (h : act c s host limit op r w = (.stop (.emitted component timeId time value), r', w')) :
    play c s host limit (op :: rest) r w = (play c s host limit rest r' w').after
      [.emitted (c.labels.name component) (c.labels.name timeId) time value] := by
  rw [play, h]

lemma play_ended {turn : Turn} {result : Except MachineError Yield}
    (h : act c s host limit op r w = (turn, r', w')) (hresult : turn.result? = some result) :
    play c s host limit (op :: rest) r w = ⟨[], result, w'⟩ := by
  rw [play, h]
  rcases turn with skip | _ | e <;> grind [Turn.result?]

lemma stores_ended {turn : Turn} {result : Except MachineError Yield}
    (h : act c s host limit op r w = (turn, r', w')) (hresult : turn.result? = some result) :
    stores c s host limit (op :: rest) r w = (pending? op r).toList := by
  rw [stores, h]
  rcases turn with skip | _ | e <;> grind [Turn.result?]

lemma stores_go {skip : ℕ} (h : act c s host limit op r w = (.go skip, r', w')) :
    stores c s host limit (op :: rest) r w =
      (pending? op r).toList ++ stores c s host limit (rest.drop skip) r' w' := by
  rw [stores, h]

lemma stores_emitted {component timeId : ℕ} {time : Float} {value : Value}
    (h : act c s host limit op r w = (.stop (.emitted component timeId time value), r', w')) :
    stores c s host limit (op :: rest) r w =
      (pending? op r).toList ++ stores c s host limit rest r' w' := by
  rw [stores, h]

variable (c s host limit) in
/-- Runs are followed operation by operation: one goes on, emits, or ends the run. -/
lemma run_induction {motive : List Op → Registers → Storage → Prop}
    (nil : ∀ r w, motive [] r w)
    (go : ∀ {op rest r w skip r' w'}, act c s host limit op r w = (.go skip, r', w') →
      motive (rest.drop skip) r' w' → motive (op :: rest) r w)
    (emitted : ∀ {op rest r w component timeId time value r' w'},
      act c s host limit op r w = (.stop (.emitted component timeId time value), r', w') →
        motive rest r' w' → motive (op :: rest) r w)
    (ended : ∀ {op rest r w turn result r' w'}, act c s host limit op r w = (turn, r', w') →
      turn.result? = some result → motive (op :: rest) r w)
    (ops : List Op) (r : Registers) (w : Storage) : motive ops r w := by
  fun_induction play c s host limit ops r w with
  | case1 r w => exact nil r w
  | case2 op rest r w skip r' w' h ih => exact go h ih
  | case3 op rest r w component timeId time value r' w' h ih => exact emitted h ih
  | case4 op rest r w y r' w' hne h =>
    cases y with
    | emitted component timeId time value => exact absurd rfl (hne component timeId time value)
    | completed next => exact ended h rfl
    | aborted => exact ended h rfl
    | raised i => exact ended h rfl
  | case5 op rest r w e r' w' h => exact ended h rfl

end

section

variable {c : Code} {s : StateCode} {functions : Array Function} {limit : ℕ}

lemma call_eq (function arity : ℕ) (names : List String) (r : Registers) (w w' : Storage) :
    call (Stepper.host c functions) limit function arity names r w' =
      ((call (Stepper.host c functions) limit function arity names r w).1,
        (call (Stepper.host c functions) limit function arity names r w).2.1, w') := by
  unfold call
  cases popMany? names.length r.stack with
  | none => rfl
  | some top =>
    dsimp only
    cases popMany? arity top.2 with
    | none => rfl
    | some below =>
      dsimp only [Stepper.host]
      cases Stepper.callFunction c functions function below.1 (names.zip top.1) <;> rfl

/-- **One operation reads storage slot by slot and changes it by what it stores.** -/
theorem act_eq {w w' : Storage} (h : ∀ slot, w'.get? slot = w.get? slot) (op : Op)
    (r : Registers) :
    act c s (Stepper.host c functions) limit op r w' =
      ((act c s (Stepper.host c functions) limit op r w).1,
        (act c s (Stepper.host c functions) limit op r w).2.1,
        w'.setAll (pending? op r).toList) := by
  cases op with
  | literal i =>
    simp only [act]
    cases c.literals[i]? <;> rfl
  | loadPersistent slot =>
    have hload : ∀ w, (Stepper.host c functions).load w slot = w.get? slot := fun _ => rfl
    simp only [act, hload, h]
    cases w.get? slot <;> rfl
  | loadLocal slot =>
    simp only [act]
    rcases r.locals[slot]? with _ | _ | v <;> rfl
  | storePersistent slot =>
    obtain ⟨stack, locals, transition⟩ := r
    cases stack <;> rfl
  | call function arity keywords =>
    cases keywords with
    | none => exact call_eq function arity [] r w w'
    | some k =>
      simp only [act]
      cases c.keywordSets[k]? with
      | none => rfl
      | some names => exact call_eq function arity names r w w'
  | storeLocal slot =>
    obtain ⟨stack, locals, transition⟩ := r
    cases stack with
    | nil => rfl
    | cons v stack =>
      simp only [act]
      split <;> rfl
  | unary op =>
    obtain ⟨stack, locals, transition⟩ := r
    cases stack with
    | nil => rfl
    | cons v stack =>
      simp only [act]
      cases v.unary op <;> rfl
  | binary op =>
    obtain ⟨stack, locals, transition⟩ := r
    rcases stack with _ | ⟨b, _ | ⟨a, stack⟩⟩
    · rfl
    · rfl
    · simp only [act]
      cases a.binary op b <;> rfl
  | jumpIfFalse offset =>
    obtain ⟨stack, locals, transition⟩ := r
    cases stack with
    | nil => rfl
    | cons v stack =>
      simp only [act]
      cases v.truth <;> rfl
  | emit component timeId =>
    obtain ⟨stack, locals, transition⟩ := r
    rcases stack with _ | ⟨v, _ | ⟨time, stack⟩⟩
    · rfl
    · rfl
    · simp only [act]
      cases time.toScalar <;> rfl
  | jump offset => rfl
  | abort => rfl
  | raise i => rfl
  | transition next => rfl
  | complete => rfl

lemma storage_of_act {op : Op} {r r' : Registers} {w w' : Storage} {turn : Turn}
    (h : act c s (Stepper.host c functions) limit op r w = (turn, r', w')) :
    w' = w.setAll (pending? op r).toList := by
  rw [act_eq (fun _ => rfl) op r] at h
  exact (congrArg (fun q => q.2.2) h).symm

/-- **A run changes storage by what it stores.** -/
theorem play_storage (ops : List Op) (r : Registers) (w : Storage) :
    (play c s (Stepper.host c functions) limit ops r w).storage =
      w.setAll (stores c s (Stepper.host c functions) limit ops r w) := by
  induction ops, r, w using run_induction c s (Stepper.host c functions) limit with
  | nil r w =>
    rw [stores, play]
    rfl
  | go h ih => rw [stores_go h, play_go h, ih, Storage.setAll_append, ← storage_of_act h]
  | emitted h ih =>
    rw [stores_emitted h, play_emitted h, Storage.setAll_append, ← storage_of_act h]
    exact ih
  | ended h hresult =>
    rw [stores_ended h hresult, play_ended h hresult]
    exact storage_of_act h

variable (c s functions limit) in
/-- **A run depends on storage by what the slots hold.** -/
theorem play_congr (ops : List Op) (r : Registers) (w : Storage) {w' : Storage}
    (h : ∀ slot, w'.get? slot = w.get? slot) :
    let u := play c s (Stepper.host c functions) limit ops r w
    let u' := play c s (Stepper.host c functions) limit ops r w'
    u'.events = u.events ∧ u'.result = u.result ∧
      stores c s (Stepper.host c functions) limit ops r w' =
        stores c s (Stepper.host c functions) limit ops r w := by
  -- the operation does the same, and the slots hold the same behind it
  have hact : ∀ {op r w w' turn r₁ w₁}, (∀ slot, w'.get? slot = w.get? slot) →
      act c s (Stepper.host c functions) limit op r w = (turn, r₁, w₁) →
        ∃ w₁', act c s (Stepper.host c functions) limit op r w' = (turn, r₁, w₁') ∧
          ∀ slot, w₁'.get? slot = w₁.get? slot := by
    intro op r w w' turn r₁ w₁ h hw
    refine ⟨_, by rw [act_eq h op r, hw], fun slot => ?_⟩
    rw [storage_of_act hw, Storage.get?_setAll, Storage.get?_setAll, h]
  induction ops, r, w using run_induction c s (Stepper.host c functions) limit
    generalizing w' with
  | nil r w =>
    rw [play, play, stores, stores]
    exact ⟨rfl, rfl, rfl⟩
  | go hw ih =>
    obtain ⟨w₁', hw', hsame⟩ := hact h hw
    obtain ⟨hevents, hresult, hstores⟩ := ih hsame
    rw [play_go hw, play_go hw', stores_go hw, stores_go hw', hstores]
    exact ⟨hevents, hresult, rfl⟩
  | emitted hw ih =>
    obtain ⟨w₁', hw', hsame⟩ := hact h hw
    obtain ⟨hevents, hresult, hstores⟩ := ih hsame
    rw [play_emitted hw, play_emitted hw', stores_emitted hw, stores_emitted hw', hstores]
    exact ⟨by simp only [Trace.after, hevents], hresult, rfl⟩
  | ended hw hresult =>
    obtain ⟨w₁', hw', -⟩ := hact h hw
    rw [play_ended hw hresult, play_ended hw' hresult, stores_ended hw hresult,
      stores_ended hw' hresult]
    exact ⟨rfl, rfl, rfl⟩

lemma op_of_pending {op : Op} {r : Registers} {e : ℕ × Value} (h : e ∈ (pending? op r).toList) :
    op = .storePersistent e.1 ∧ r.stack ≠ [] := by
  unfold pending? at h
  split at h
  · rename_i hstack
    obtain rfl := List.mem_singleton.1 h
    exact ⟨rfl, by simp [hstack]⟩
  · cases h

lemma pending_eq_none_of_ended {op : Op} {r r' : Registers} {w w' : Storage} {turn : Turn}
    {result : Except MachineError Yield}
    (h : act c s (Stepper.host c functions) limit op r w = (turn, r', w'))
    (hresult : turn.result? = some result) : (pending? op r).toList = [] := by
  refine List.eq_nil_iff_forall_not_mem.2 fun e he => ?_
  obtain ⟨rfl, hstack⟩ := op_of_pending he
  obtain ⟨v, stack, hcons⟩ := List.exists_cons_of_ne_nil hstack
  rw [act, hcons] at h
  cases h
  cases hresult

lemma push_ne_stop (r : Registers) (v : Value) (y : Yield) : (push limit r v).1 ≠ .stop y := by
  unfold push
  split <;> simp

lemma call_ne_stop (function arity : ℕ) (names : List String) (r : Registers) (w : Storage)
    (y : Yield) :
    (call (Stepper.host c functions) limit function arity names r w).1 ≠ .stop y := by
  unfold call
  split
  · simp
  · split
    · simp
    · split
      · simp
      · exact push_ne_stop _ _ y

lemma op_of_aborted {op : Op} {r : Registers} {w : Storage}
    (h : (act c s (Stepper.host c functions) limit op r w).1 = .stop .aborted) : op = .abort := by
  cases op with
  | call function arity keywords => cases keywords <;> grind [act, call_ne_stop]
  | _ => grind [act, push_ne_stop]

lemma abort_mem_of_aborted (ops : List Op) (r : Registers) (w : Storage)
    (h : (play c s (Stepper.host c functions) limit ops r w).result = .ok .aborted) :
    .abort ∈ ops := by
  induction ops, r, w using run_induction c s (Stepper.host c functions) limit with
  | nil r w =>
    rw [play] at h
    cases h
  | go hw ih =>
    rw [play_go hw] at h
    exact List.mem_cons_of_mem _ (List.mem_of_mem_drop (ih h))
  | emitted hw ih =>
    rw [play_emitted hw] at h
    exact List.mem_cons_of_mem _ (ih h)
  | @ended op rest r w turn result r' w' hw hresult =>
    rw [play_ended hw hresult] at h
    obtain rfl : result = .ok .aborted := h
    have hop : op = .abort := op_of_aborted (by rw [hw, Turn.eq_of_result? hresult])
    rw [hop]
    exact List.mem_cons_self

lemma sublist_cons_of_pending {op : Op} {r : Registers} {rest later : List Op}
    {l : List (ℕ × Value)} {e : ℕ × Value} (hlater : later.Sublist rest) (habort : .abort ∈ later)
    (hl : e ∈ l → List.Sublist [.storePersistent e.1, .abort] later)
    (he : e ∈ (pending? op r).toList ++ l) :
    List.Sublist [.storePersistent e.1, .abort] (op :: rest) := by
  rcases List.mem_append.1 he with he | he
  · obtain ⟨rfl, -⟩ := op_of_pending he
    exact .cons_cons _ (List.singleton_sublist.2 (hlater.subset habort))
  · exact .cons _ ((hl he).trans hlater)

/-- What a run stores before it is abandoned is stored by an operation in front of an abort. -/
theorem sublist_of_mem_stores (ops : List Op) (r : Registers) (w : Storage)
    (h : (play c s (Stepper.host c functions) limit ops r w).result = .ok .aborted)
    {e : ℕ × Value} (he : e ∈ stores c s (Stepper.host c functions) limit ops r w) :
    List.Sublist [.storePersistent e.1, .abort] ops := by
  induction ops, r, w using run_induction c s (Stepper.host c functions) limit with
  | nil r w =>
    rw [stores] at he
    cases he
  | go hw ih =>
    rw [play_go hw] at h
    rw [stores_go hw] at he
    exact sublist_cons_of_pending (List.drop_sublist _ _) (abort_mem_of_aborted _ _ _ h) (ih h) he
  | emitted hw ih =>
    rw [play_emitted hw] at h
    rw [stores_emitted hw] at he
    exact sublist_cons_of_pending (List.Sublist.refl _) (abort_mem_of_aborted _ _ _ h) (ih h) he
  | ended hw hresult =>
    rw [stores_ended hw hresult, pending_eq_none_of_ended hw hresult] at he
    cases he

end

end Machine

/-! ### Names -/

lemma SymbolTable.lookup_map_name (table : SymbolTable) {l : List (ℕ × Value)}
    (hl : ∀ e ∈ l, e.1 < table.size) (x : String) :
    (l.map fun e => (table.name e.1, e.2)).lookup x = (table.slot? x).bind (l.lookup ·) := by
  induction l with
  | nil => cases table.slot? x <;> rfl
  | cons e l ih =>
    rw [List.forall_mem_cons] at hl
    obtain ⟨y, hy, -⟩ := SymbolTable.exists_slot? hl.1
    obtain ⟨slot, v⟩ := e
    have hname : table.name slot = y := SymbolTable.name_of_slot? hy
    rw [List.map_cons, List.lookup_cons, ih hl.2, hname]
    by_cases hxy : x = y
    · subst hxy
      simp [hy]
    · rw [beq_false_of_ne hxy]
      cases hx : table.slot? x with
      | none => rfl
      | some slot' =>
        -- another name has another slot
        have hne : slot' ≠ slot := fun heq => hxy (SymbolTable.slot?_inj (heq ▸ hx) hy)
        simp [List.lookup_cons, beq_false_of_ne hne]

namespace Code

variable (c : Code)

lemma contents_setAll {l : List (ℕ × Value)} (hl : ∀ e ∈ l, e.1 < c.persistent.size)
    (w : Storage) (x : String) :
    c.contents (w.setAll l) x =
      ((l.map fun e => (c.persistent.name e.1, e.2)).reverse.lookup x).or (c.contents w x) := by
  have hlookup := c.persistent.lookup_map_name (fun e he => hl e (List.mem_reverse.1 he)) x
  rw [← List.map_reverse, hlookup, contents, contents]
  cases c.persistent.slot? x with
  | none => rfl
  | some slot => exact w.get?_setAll l slot

lemma get?_setAll_of_contents {l : List (ℕ × Value)} (hl : ∀ e ∈ l, e.1 < c.persistent.size)
    {w : Storage} (h : ∀ x, c.contents (w.setAll l) x = c.contents w x) (slot : ℕ) :
    (w.setAll l).get? slot = w.get? slot := by
  by_cases hslot : slot < c.persistent.size
  · obtain ⟨x, hx, -⟩ := SymbolTable.exists_slot? hslot
    have hcontents : ∀ w, c.contents w x = w.get? slot := fun w => by
      rw [contents, hx, Option.bind_some]
    rw [← hcontents, ← hcontents, h]
  · have hnone : l.reverse.lookup slot = none := by
      rw [List.lookup_eq_none_iff]
      intro e he
      have := hl e (List.mem_reverse.1 he)
      exact bne_iff_ne.2 (by omega)
    rw [Storage.get?_setAll, hnone, Option.none_or]

end Code

end TimeMarch
