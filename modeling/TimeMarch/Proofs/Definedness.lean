import TimeMarch.Proofs.Readiness
import TimeMarch.Proofs.Refusals
import TimeMarch.Proofs.Safety

/-!
# Variables of a State Are Assigned Before They Are Read

A program may promise that an instruction that reads a variable of its state depends, directly or
not, on one that assigns it. Schedules keep dependencies in front on every way through them, so in
the code the variable has been stored on every path to where it is loaded. `Definite` says this of
code and is kept by the machine, whatever its host does.
-/

namespace TimeMarch

namespace Op

/-- A load of a temporary variable finds it among the slots that are assigned; persistent slots are
not those of temporary variables. -/
def Admitted (t : Tables) (s : StateCode) (assigned : Set ℕ) : Op → Prop
  | loadLocal slot => Name.space (s.locals.name slot) = .temporary → slot ∈ assigned
  | loadPersistent slot => Name.space (t.persistent.name slot) ≠ .temporary
  | _ => True

lemma Admitted.mono {t : Tables} {s : StateCode} {assigned assigned' : Set ℕ} {op : Op}
    (h : op.Admitted t s assigned) (hsub : assigned ⊆ assigned') : op.Admitted t s assigned' := by
  cases op with
  | loadLocal slot => exact fun htemporary => hsub (h htemporary)
  | loadPersistent slot => exact h
  | _ => trivial

end Op

/-- With the given slots assigned, every path through the operations stores a temporary variable
before it loads it. -/
inductive Definite (t : Tables) (s : StateCode) : Set ℕ → List Op → Prop where
  | nil {assigned : Set ℕ} : Definite t s assigned []
  | storeLocal {assigned : Set ℕ} {slot : ℕ} {rest : List Op}
      (hrest : Definite t s (insert slot assigned) rest) :
      Definite t s assigned (.storeLocal slot :: rest)
  | jump {assigned : Set ℕ} {offset : ℕ} {rest : List Op}
      (h : Definite t s assigned (rest.drop offset)) : Definite t s assigned (.jump offset :: rest)
  | jumpIfFalse {assigned : Set ℕ} {offset : ℕ} {rest : List Op}
      (hyes : Definite t s assigned rest) (hno : Definite t s assigned (rest.drop offset)) :
      Definite t s assigned (.jumpIfFalse offset :: rest)
  | plain {assigned : Set ℕ} {op : Op} {rest : List Op} (hop : op.Admitted t s assigned)
      (hoffset : op.offset? = none) (hrest : Definite t s assigned rest) :
      Definite t s assigned (op :: rest)

namespace Definite

variable {t : Tables} {s : StateCode}

lemma mono {assigned assigned' : Set ℕ} {ops : List Op} (h : Definite t s assigned ops)
    (hsub : assigned ⊆ assigned') : Definite t s assigned' ops := by
  induction h generalizing assigned' with
  | nil => exact .nil
  | storeLocal _ ih => exact .storeLocal (ih (Set.insert_subset_insert hsub))
  | jump _ ih => exact .jump (ih hsub)
  | jumpIfFalse _ _ ihyes ihno => exact .jumpIfFalse (ihyes hsub) (ihno hsub)
  | plain hop hoffset _ ih => exact .plain (hop.mono hsub) hoffset (ih hsub)

variable {assigned : Set ℕ} {op : Op} {rest : List Op}

lemma plain_inv (h : Definite t s assigned (op :: rest)) (hoffset : op.offset? = none)
    (hstore : ∀ slot, op ≠ .storeLocal slot) :
    op.Admitted t s assigned ∧ Definite t s assigned rest := by
  cases h with
  | storeLocal h => exact absurd rfl (hstore _)
  | jump h => cases hoffset
  | jumpIfFalse hyes hno => cases hoffset
  | plain hop _ hrest => exact ⟨hop, hrest⟩

lemma storeLocal_inv {slot : ℕ} (h : Definite t s assigned (.storeLocal slot :: rest)) :
    Definite t s (insert slot assigned) rest := by
  cases h with
  | storeLocal h => exact h
  | plain _ _ h => exact h.mono (Set.subset_insert _ _)

lemma jump_inv {offset : ℕ} (h : Definite t s assigned (.jump offset :: rest)) :
    Definite t s assigned (rest.drop offset) := by
  cases h with
  | jump h => exact h
  | plain _ hoffset _ => cases hoffset

lemma jumpIfFalse_inv {offset : ℕ} (h : Definite t s assigned (.jumpIfFalse offset :: rest)) :
    Definite t s assigned rest ∧ Definite t s assigned (rest.drop offset) := by
  cases h with
  | jumpIfFalse hyes hno => exact ⟨hyes, hno⟩
  | plain _ hoffset _ => cases hoffset

end Definite

/-! ### Generated code -/

namespace Expr

lemma mem_listMentionsOnto {l : List Expr} {m : Mention} :
    m ∈ listMentionsOnto l [] ↔ ∃ e ∈ l, m ∈ e.mentions := by
  induction l with
  | nil => simp [listMentionsOnto]
  | cons e l ih => simp [listMentionsOnto_cons, ih]

lemma mem_keywordMentionsOnto {l : List (String × Expr)} {m : Mention} :
    m ∈ keywordMentionsOnto l [] ↔ ∃ e ∈ l.map Prod.snd, m ∈ e.mentions := by
  induction l with
  | nil => simp [keywordMentionsOnto]
  | cons entry l ih =>
    obtain ⟨name, e⟩ := entry
    simp [keywordMentionsOnto_cons, ih]

def Supplied (s : StateCode) (assigned : Set ℕ) (e : Expr) : Prop :=
  ∀ x, .read x ∈ e.mentions → Name.space x = .temporary →
    ∀ slot, s.locals.slot? x = some slot → slot ∈ assigned

end Expr

section

variable {p : Program} {t : Tables} {s : StateCode} {assigned : Set ℕ}

lemma admitted_load {x : String} {slot : Lowering.Slot} (hslot : (t.scope s).slot? x = some slot)
    (h : (Expr.var x).Supplied s assigned) : slot.load.Admitted t s assigned := by
  unfold Scope.slot? at hslot
  split at hslot
  · rename_i hpersistent
    obtain ⟨i, hi, rfl⟩ := Option.map_eq_some_iff.1 hslot
    intro htemporary
    have hname : t.persistent.name i = x := SymbolTable.name_of_slot? hi
    rw [← hname, htemporary] at hpersistent
    cases hpersistent
  · obtain ⟨i, hi, rfl⟩ := Option.map_eq_some_iff.1 hslot
    intro htemporary
    have hname : s.locals.name i = x := SymbolTable.name_of_slot? hi
    rw [hname] at htemporary
    exact h x (by simp [Expr.mentions, Expr.mentionsOnto]) htemporary i hi

lemma offset?_load (slot : Lowering.Slot) : slot.load.offset? = none := by
  cases slot <;> rfl

theorem ExprCode.definite {literals : List Value} {es : List Expr} {code : List Op}
    (h : ExprCode literals (t.scope s) es code) (hes : ∀ e ∈ es, e.Supplied s assigned)
    {rest : List Op} (hrest : Definite t s assigned rest) :
    Definite t s assigned (code ++ rest) := by
  induction h generalizing rest with
  | nil => exact hrest
  | literal _ _ _ _ ih =>
    rw [List.forall_mem_cons] at hes
    exact .plain trivial rfl (ih hes.2 hrest)
  | @var x slot _ _ hslot _ ih =>
    rw [List.forall_mem_cons] at hes
    exact .plain (admitted_load hslot hes.1) (offset?_load slot) (ih hes.2 hrest)
  | @unary op x _ _ _ _ _ ihx ih =>
    rw [List.forall_mem_cons] at hes
    rw [List.append_assoc]
    have hx : x.Supplied s assigned := hes.1
    exact ihx (by simpa using hx) (.plain trivial rfl (ih hes.2 hrest))
  | @binary op l r _ _ _ _ _ ihlr ih =>
    rw [List.forall_mem_cons] at hes
    rw [List.append_assoc]
    refine ihlr (fun e he x hx => hes.1 x ?_) (.plain trivial rfl (ih hes.2 hrest))
    rw [Expr.mentions_binary, List.mem_append]
    rcases List.mem_pair.1 he with rfl | rfl
    · exact .inl hx
    · exact .inr hx
  | @call f args keywords _ _ _ _ _ _ _ _ _ ihargs ih =>
    rw [List.forall_mem_cons] at hes
    rw [List.append_assoc]
    refine ihargs (fun e he x hx => hes.1 x ?_) (.plain trivial rfl (ih hes.2 hrest))
    rw [Expr.mentions_call, List.mem_cons, List.mem_append, Expr.mem_listMentionsOnto,
      Expr.mem_keywordMentionsOnto]
    exact .inr ((List.mem_append.1 he).imp (fun he => ⟨e, he, hx⟩) fun he => ⟨e, he, hx⟩)
  | @cond c y n _ _ _ _ _ _ _ _ _ ihc ihy ihn ih =>
    rw [List.forall_mem_cons] at hes
    simp only [List.append_assoc, List.cons_append]
    have hsub : ∀ e ∈ [c, y, n], e.Supplied s assigned := by
      intro e he x hx
      refine hes.1 x ?_
      rw [Expr.mentions_cond, List.mem_append, List.mem_append]
      simp only [List.mem_cons, List.not_mem_nil, or_false] at he
      rcases he with rfl | rfl | rfl
      · exact .inl hx
      · exact .inr (.inl hx)
      · exact .inr (.inr hx)
    simp only [List.forall_mem_cons] at hsub
    obtain ⟨hc, hy, hn, -⟩ := hsub
    refine ihc (by simpa using hc) (.jumpIfFalse (ihy (by simpa using hy) (.jump ?_)) ?_)
    · rw [List.drop_left]
      exact ih hes.2 hrest
    · rw [drop_then]
      exact ihn (by simpa using hn) (ih hes.2 hrest)

/-- What the instructions in a set assign to temporary variables is assigned. -/
def Covered (p : Program) (s : StateCode) (done : Set String) (assigned : Set ℕ) : Prop :=
  ∀ id ∈ done, ∀ i x e, p.instructions.get? id = some i → i.action = .assign x e →
    Name.space x = .temporary → ∀ slot, s.locals.slot? x = some slot → slot ∈ assigned

/-- An instruction depends, directly or not, on assignments to the temporary variables it reads. -/
def InstructionSet.Prepared (is : InstructionSet) (id : String) : Prop :=
  ∀ i, is.get? id = some i → ∀ x ∈ i.reads, Name.space x = .temporary →
    ∃ d j e, Relation.TransGen is.DependsOn id d ∧ is.get? d = some j ∧ j.action = .assign x e

lemma Covered.mono {done : Set String} {assigned' : Set ℕ} (h : Covered p s done assigned)
    (hsub : assigned ⊆ assigned') : Covered p s done assigned' :=
  fun id hid i x e hi haction hx slot hslot => hsub (h id hid i x e hi haction hx slot hslot)

lemma Covered.insert {done : Set String} {id : String} {i : Instruction}
    (h : Covered p s done assigned) (hi : p.instructions.get? id = some i)
    (haction : ∀ x e, i.action = .assign x e → Name.space x = .temporary →
      ∀ slot, s.locals.slot? x = some slot → slot ∈ assigned) :
    Covered p s (insert id done) assigned := by
  rintro id' (rfl | hid') j x e hj haction'
  · obtain rfl := Option.some.inj (hi.symm.trans hj)
    exact haction x e haction'
  · exact h id' hid' j x e hj haction'

/-- The expressions of a prepared instruction find their variables once its dependencies are
done. -/
lemma Covered.supplied {done : Set String} {id : String} {i : Instruction}
    (h : Covered p s done assigned) (hsettled : p.instructions.Settled done)
    (hdeps : ∀ d, p.instructions.DependsOn id d → d ∈ done)
    (hprepared : p.instructions.Prepared id) (hi : p.instructions.get? id = some i) :
    ∀ e ∈ i.expressions, e.Supplied s assigned := by
  intro e he x hx htemporary slot hslot
  have hread : x ∈ i.reads := Lowering.mem_reads.2 (Expr.mem_listMentionsOnto.2 ⟨e, he, hx⟩)
  obtain ⟨d, j, e', hd, hj, haction⟩ := hprepared i hi x hread htemporary
  exact h d (hsettled.mem_of_transGen hdeps hd) j x e' hj haction htemporary slot hslot

lemma Covered.branch {done : Set String} {id : String} {i : Instruction} {c : Expr} {y n : NameSet}
    (h : Covered p s done assigned) (hsettled : p.instructions.Settled done)
    (hdeps : ∀ d, p.instructions.DependsOn id d → d ∈ done)
    (hprepared : p.instructions.Prepared id) (hi : p.instructions.get? id = some i)
    (haction : i.action = .branch c y n) :
    (∀ e ∈ [c], e.Supplied s assigned) ∧ Covered p s (Insert.insert id done) assigned := by
  have hes := h.supplied hsettled hdeps hprepared hi
  rw [Instruction.expressions, haction] at hes
  exact ⟨hes, h.insert hi (by simp [haction])⟩

lemma ActionCode.definite {i : Instruction} {code : List Op}
    (h : ActionCode p (t.scope s) i.action code)
    (hes : ∀ e ∈ i.expressions, e.Supplied s assigned) {rest : List Op}
    (hrest : ∀ assigned', assigned ⊆ assigned' → (∀ x e, i.action = .assign x e →
      Name.space x = .temporary → ∀ slot, s.locals.slot? x = some slot → slot ∈ assigned') →
      Definite t s assigned' rest) : Definite t s assigned (code ++ rest) := by
  obtain ⟨id, dependsOn, action⟩ := i
  dsimp only at h hrest
  have hsame : (∀ x e, action ≠ .assign x e) → Definite t s assigned rest := fun hne =>
    hrest assigned subset_rfl fun x e haction => absurd haction (hne x e)
  cases h with
  | @assign x e slot code he hslot =>
    rw [List.append_assoc]
    refine he.definite hes ?_
    unfold Scope.slot? at hslot
    split at hslot
    · rename_i hpersistent
      obtain ⟨k, hk, rfl⟩ := Option.map_eq_some_iff.1 hslot
      refine .plain trivial rfl (hrest assigned subset_rfl fun x' e' haction htemporary => ?_)
      obtain ⟨rfl, rfl⟩ := Action.assign.inj haction
      rw [htemporary] at hpersistent
      cases hpersistent
    · obtain ⟨k, hk, rfl⟩ := Option.map_eq_some_iff.1 hslot
      refine .storeLocal (hrest _ (Set.subset_insert k assigned) fun x' e' haction _ slot' h' => ?_)
      obtain ⟨rfl, rfl⟩ := Action.assign.inj haction
      exact .inl (Option.some.inj (h'.symm.trans hk))
  | emit he _ _ =>
    rw [List.append_assoc]
    exact he.definite hes (.plain trivial rfl (hsame (by simp)))
  | abort => exact .plain trivial rfl (hsame (by simp))
  | raise _ => exact .plain trivial rfl (hsame (by simp))
  | transition _ => exact .plain trivial rfl (hsame (by simp))

/-- **Scheduled code is definite** if all its instructions are prepared. -/
theorem StepCode.definite {steps : List Step} {code : List Op}
    (h : StepCode p (t.scope s) steps code) {done : Set String}
    (hready : Schedule.Ready p.instructions done steps) (hsettled : p.instructions.Settled done)
    (hprepared : ∀ id ∈ Step.idsOf steps, p.instructions.Prepared id)
    (hdone : Covered p s done assigned) {rest : List Op} (hrest : Definite t s assigned rest) :
    Definite t s assigned (code ++ rest) := by
  induction h generalizing done assigned rest with
  | nil => exact hrest
  | @run id i code steps k hi hcode _ ih =>
    cases hready with
    | run hdeps hready =>
      rw [Step.idsOf, List.forall_mem_append] at hprepared
      have hes := hdone.supplied hsettled hdeps (hprepared.1 id (by simp [Step.ids])) hi
      rw [List.append_assoc]
      refine hcode.definite hes fun assigned' hsub hassign => ?_
      exact ih hready (hsettled.insert hdeps) hprepared.2 ((hdone.mono hsub).insert hi hassign)
        (hrest.mono hsub)
  | @ifOnly id i c y n yes steps code ycode k hi haction hc _ _ ihyes ih =>
    cases hready with
    | branch hdeps hyes _ hready =>
      rw [Step.idsOf, List.forall_mem_append] at hprepared
      obtain ⟨hes, hdone⟩ := hdone.branch hsettled hdeps (hprepared.1 id (by simp [Step.ids])) hi
        haction
      have hsettled := hsettled.insert hdeps
      have hbehind := ih hready hsettled hprepared.2 hdone hrest
      simp only [List.append_assoc, List.cons_append]
      refine hc.definite hes (.jumpIfFalse (ihyes hyes hsettled
        (fun x hx => hprepared.1 x (by simp [Step.ids, hx])) hdone hbehind) ?_)
      rw [List.drop_left]
      exact hbehind
  | @ifElse id i c y n yes no steps code ycode ncode k hi haction hc _ _ _ ihyes ihno ih =>
    cases hready with
    | branch hdeps hyes hno hready =>
      rw [Step.idsOf, List.forall_mem_append] at hprepared
      obtain ⟨hes, hdone⟩ := hdone.branch hsettled hdeps (hprepared.1 id (by simp [Step.ids])) hi
        haction
      have hsettled := hsettled.insert hdeps
      have hbehind := ih hready hsettled hprepared.2 hdone hrest
      simp only [List.append_assoc, List.cons_append]
      refine hc.definite hes (.jumpIfFalse (ihyes hyes hsettled
        (fun x hx => hprepared.1 x (by simp [Step.ids, hx])) hdone (.jump ?_)) ?_)
      · rw [List.drop_left]
        exact hbehind
      · rw [drop_then]
        exact ihno hno hsettled (fun x hx => hprepared.1 x (by simp [Step.ids, hx])) hdone hbehind

end

/-! ### The machine -/

def Registers.Defined (t : Tables) (s : StateCode) (ops : List Op) (r : Registers) : Prop :=
  ∃ assigned, Definite t s assigned ops ∧ ∀ slot ∈ assigned, r.locals[slot]? ≠ some none

def MachineError.Harmless (e : MachineError) : Prop :=
  ∀ x, Name.space x = .temporary → e ≠ .undefinedVariable x

namespace Machine

def Turn.Defined (t : Tables) (s : StateCode) (rest : List Op) (r : Registers) : Turn → Prop
  | go skip => r.Defined t s (rest.drop skip)
  | stop _ => r.Defined t s rest
  | fail e => e.Harmless

variable {σ : Type} {c : Code} {s : StateCode} {host : Host σ} {limit : ℕ} {r : Registers}
  {rest : List Op}

lemma push_defined (h : r.Defined c.toTables s rest) (v : Value) :
    (push limit r v).1.Defined c.toTables s rest (push limit r v).2 := by
  unfold push
  split
  · exact fun x _ => by simp
  · exact h

lemma call_defined
    (hhost : ∀ w function positional keywords e,
      (host.call w function positional keywords).1 = .error e → e.Harmless)
    (h : r.Defined c.toTables s rest) (function arity : ℕ) (names : List String) (w : σ) :
    (call host limit function arity names r w).1.Defined c.toTables s rest
      (call host limit function arity names r w).2.1 := by
  unfold call
  split
  · exact fun x _ => by simp
  · rename_i values stack _
    split
    · exact fun x _ => by simp
    · rename_i positional stack _
      split
      · rename_i e w' hcall
        exact hhost w function positional _ e (by rw [hcall])
      · exact push_defined (r := { r with stack }) h _

/-- **One operation keeps the variables defined.** -/
theorem act_defined
    (hhost : ∀ w function positional keywords e,
      (host.call w function positional keywords).1 = .error e → e.Harmless) {op : Op}
    (h : r.Defined c.toTables s (op :: rest)) (w : σ) :
    (act c s host limit op r w).1.Defined c.toTables s rest (act c s host limit op r w).2.1 := by
  obtain ⟨assigned, hdefinite, hvalues⟩ := h
  -- an operation that neither jumps nor stores into a variable of the state
  have hplain : op.offset? = none → (∀ slot, op ≠ .storeLocal slot) →
      r.Defined c.toTables s rest := fun hoffset hstore =>
    ⟨assigned, (hdefinite.plain_inv hoffset hstore).2, hvalues⟩
  cases op with
  | literal i =>
    simp only [act]
    split
    · exact fun x _ => by simp
    · exact push_defined (hplain rfl (by simp)) _
  | loadPersistent slot =>
    have hop := (hdefinite.plain_inv rfl (by simp)).1
    simp only [act]
    split
    · rintro x hx heq
      obtain rfl := MachineError.undefinedVariable.inj heq
      exact hop hx
    · exact push_defined (hplain rfl (by simp)) _
  | loadLocal slot =>
    have hop := (hdefinite.plain_inv rfl (by simp)).1
    simp only [act]
    split
    · exact fun x _ => by simp
    · rename_i hnone
      rintro x hx heq
      obtain rfl := MachineError.undefinedVariable.inj heq
      exact hvalues slot (hop hx) hnone
    · exact push_defined (hplain rfl (by simp)) _
  | storePersistent slot =>
    simp only [act]
    split
    · exact fun x _ => by simp
    · exact hplain rfl (by simp)
  | storeLocal slot =>
    simp only [act]
    split
    · exact fun x _ => by simp
    · split
      · refine ⟨_, hdefinite.storeLocal_inv, ?_⟩
        rintro slot' (rfl | hslot')
        · simp [Array.getElem?_setIfInBounds]
        · rw [Array.getElem?_setIfInBounds]
          split
          · simp
          · exact hvalues slot' hslot'
      · exact fun x _ => by simp
  | unary op =>
    simp only [act]
    split
    · exact fun x _ => by simp
    · split
      · exact hplain rfl (by simp)
      · exact fun x _ => by simp
  | binary op =>
    simp only [act]
    split
    · exact fun x _ => by simp
    · exact fun x _ => by simp
    · split
      · exact hplain rfl (by simp)
      · exact fun x _ => by simp
  | jumpIfFalse offset =>
    obtain ⟨hyes, hno⟩ := hdefinite.jumpIfFalse_inv
    simp only [act]
    split
    · exact fun x _ => by simp
    · split
      · rename_i b _
        cases b with
        | true => exact ⟨assigned, hyes, hvalues⟩
        | false => exact ⟨assigned, hno, hvalues⟩
      · exact fun x _ => by simp
  | jump offset => exact ⟨assigned, hdefinite.jump_inv, hvalues⟩
  | call function arity keywords =>
    have h := hplain rfl (by simp)
    cases keywords with
    | none => exact call_defined hhost h function arity [] w
    | some k =>
      simp only [act]
      split
      · exact fun x _ => by simp
      · exact call_defined hhost h function arity _ w
  | emit component timeId =>
    simp only [act]
    split
    · exact fun x _ => by simp
    · exact fun x _ => by simp
    · split
      · exact hplain rfl (by simp)
      · exact fun x _ => by simp
  | abort => exact hplain rfl (by simp)
  | raise i => exact hplain rfl (by simp)
  | transition next => exact hplain rfl (by simp)
  | complete => exact hplain rfl (by simp)

end Machine

/-! ### Frames -/

def Frame.Defined (c : Code) (f : Frame) : Prop :=
  ∃ s, c.state? f.state = some s ∧ f.toRegisters.Defined c.toTables s (s.ops.toList.drop f.ip)

section

variable {σ : Type} {c : Code} {host : Host σ} {limit : ℕ}

/-- The frames of an execution: the one it begins with, and what resuming leaves of them for their
owner to go on with. The owner may change the surroundings in between. -/
inductive Frame.Resumed (c : Code) (host : Host σ) (limit : ℕ) (start : Frame) : Frame → Prop where
  | start : Resumed c host limit start start
  | resume {f f' : Frame} {w w' : σ} {y : Yield} (hf : Resumed c host limit start f)
      (h : Machine.resume c host limit f w = (.ok y, f', w')) : Resumed c host limit start f'

variable (hhost : ∀ w function positional keywords e,
  (host.call w function positional keywords).1 = .error e → e.Harmless)
include hhost

lemma Machine.resumeIn_defined {s : StateCode} (f : Frame) (w : σ)
    (hs : c.state? f.state = some s)
    (h : f.toRegisters.Defined c.toTables s (s.ops.toList.drop f.ip)) :
    (∀ y, (resumeIn c s host limit f w).1 = .ok y → (resumeIn c s host limit f w).2.1.Defined c) ∧
      ∀ e, (resumeIn c s host limit f w).1 = .error e → e.Harmless := by
  -- the operation at the front of those that are left
  have hact : ∀ (f : Frame) (w : σ) (hip : f.ip < s.ops.size),
      f.toRegisters.Defined c.toTables s (s.ops.toList.drop f.ip) →
      (act c s host limit s.ops[f.ip] f.toRegisters w).1.Defined c.toTables s
        (s.ops.toList.drop (f.ip + 1)) (act c s host limit s.ops[f.ip] f.toRegisters w).2.1 := by
    intro f w hip h
    rw [List.drop_eq_getElem_cons (by simpa using hip), Array.getElem_toList] at h
    exact act_defined hhost h w
  fun_induction resumeIn c s host limit f w with
  | case1 f w hip skip r w₁ heq ih =>
    have hdefined := hact f w hip h
    rw [heq] at hdefined
    refine ih hs ?_
    rw [← List.drop_drop]
    exact hdefined
  | case2 f w hip y r w₁ heq =>
    have hdefined := hact f w hip h
    rw [heq] at hdefined
    exact ⟨fun _ _ => ⟨s, hs, hdefined⟩, by simp⟩
  | case3 f w hip e r w₁ heq =>
    have hdefined := hact f w hip h
    rw [heq] at hdefined
    refine ⟨by simp, fun e' he' => ?_⟩
    obtain rfl := Except.error.inj he'
    exact hdefined
  | case4 f w hip => exact ⟨fun _ _ => ⟨s, hs, h⟩, by simp⟩

/-- **A frame stays defined** when it is resumed, and does not fail at a temporary variable. -/
theorem Frame.Defined.resume {f : Frame} (h : f.Defined c) (w : σ) :
    (∀ y, (Machine.resume c host limit f w).1 = .ok y →
      (Machine.resume c host limit f w).2.1.Defined c) ∧
      ∀ e, (Machine.resume c host limit f w).1 = .error e → e.Harmless := by
  obtain ⟨s, hs, hr⟩ := h
  rw [Machine.resume, hs]
  exact Machine.resumeIn_defined hhost f w hs hr

lemma Frame.Resumed.defined {start f : Frame} (h : Frame.Resumed c host limit start f)
    (hstart : start.Defined c) : f.Defined c := by
  induction h with
  | start => exact hstart
  | @resume f f' w w' y _ heq ih =>
    have hresume := (ih.resume hhost w).1 y (congrArg Prod.fst heq)
    rwa [heq] at hresume

end

/-! ### States -/

/-- The calls of a stepper's functions fail for reasons of their own. -/
lemma Stepper.harmless_of_call {c : Code} {functions : Array Function} (w : Storage)
    (function : ℕ) (positional : List Value) (keywords : List (String × Value)) (e : MachineError)
    (h : ((Stepper.host c functions).call w function positional keywords).1 = .error e) :
    e.Harmless := by
  rintro x - rfl
  unfold Stepper.host Stepper.callFunction at h
  dsimp only at h
  split at h
  · simp at h
  · split at h <;> simp at h

/-- **Prepared instructions read nothing undefined.** If in an accepted and compiled program every
instruction that a state reaches depends, directly or not, on assignments to the temporary variables
it reads, then no execution of the state ends because a temporary variable is undefined. This holds
from any storage, and with any functions of the host that do not fail in this way themselves. -/
theorem temporaries_defined_of_prepared {instructions : InstructionSet} {states : List State}
    {initial : String} {p : Program} (hp : Program.create instructions states initial = .ok p)
    {reserved : List String} {c : Code} (hc : Code.ofProgram reserved p = .ok c) {name : String}
    {ids : Roll} (hids : p.reachable? name = some ids)
    (hprepared : ∀ id ∈ ids.keys, p.instructions.Prepared id) {σ : Type} (host : Host σ)
    (hhost : ∀ w function positional keywords e,
      (host.call w function positional keywords).1 = .error e → e.Harmless) (limit : ℕ) :
    ∃ index start, c.stateIndex? name = some index ∧ Frame.start c index = .ok start ∧
      ∀ f, Frame.Resumed c host limit start f → ∀ w x, Name.space x = .temporary →
        (Machine.resume c host limit f w).1 ≠ .error (.undefinedVariable x) := by
  have hacc := Program.accepted_of_create hp
  obtain ⟨st, hst, rfl⟩ := Option.map_eq_some_iff.1 hids
  obtain ⟨index, s, hindex, hs, hof⟩ := (Code.of_ofProgram hacc.name_eq hc).exists_code hst
  obtain ⟨steps, body, hroots, hcode, hops⟩ := hof.ops
  obtain ⟨hready, hreachable⟩ := Schedule.ready_of_ofRoots hacc.exists_of_dependsOn hroots
  have hdefinite : Definite c.toTables s ∅ (body ++ [.complete]) := by
    refine hcode.definite hready .empty (fun id hid => hprepared id ?_) (by simp [Covered])
      (.plain trivial rfl .nil)
    exact (Graph.mem_reachable_iff _ _ _).2 (hreachable id hid)
  have hstart : Frame.start c index =
      .ok { state := index, locals := Array.replicate s.locals.size none } := by
    rw [Frame.start, hs]
  refine ⟨index, _, hindex, hstart, fun f hf w x hx herror => ?_⟩
  have hdefined := hf.defined hhost ⟨s, hs, ∅, by simpa [hops] using hdefinite, by simp⟩
  exact (hdefined.resume hhost w).2 _ herror x hx rfl

def readInArms : InstructionSet :=
  (InstructionSet.empty.addAll [
    ⟨"guess", ∅, .assign "k" (.var "<t>")⟩,
    ⟨"check", .ofList ["guess"], .branch (.binary .gt (.var "k") (.literal (.scalar 0)))
      (.ofList ["save"]) (.ofList ["out"])⟩,
    ⟨"save", .ofList ["guess"], .assign "<p>last" (.var "k")⟩,
    ⟨"out", .ofList ["guess"], .emit (.var "<t>") "final" (.var "k") "y"⟩]).toOption.getD .empty

theorem temporaries_defined_readInArms : ∃ p c ids,
    Program.create readInArms [⟨"s", ["check"], "s"⟩] "s" = .ok p ∧
    Code.ofProgram defaultReserved p = .ok c ∧ p.reachable? "s" = some ids ∧
    (∀ id ∈ ids.keys, p.instructions.Prepared id) ∧ "save" ∈ ids.keys ∧
    ∃ index start, c.stateIndex? "s" = some index ∧ Frame.start c index = .ok start ∧
      ∀ f, Frame.Resumed c (Stepper.host c #[]) 2 start f → ∀ w x, Name.space x = .temporary →
        (Machine.resume c (Stepper.host c #[]) 2 f w).1 ≠ .error (.undefinedVariable x) := by
  have hsome : ((Program.create readInArms [⟨"s", ["check"], "s"⟩] "s").toOption.bind fun p =>
      (Code.ofProgram defaultReserved p).toOption.bind fun _ => (p.reachable? "s").bind fun ids =>
        if (∀ id ∈ ids.keys, ∀ i ∈ p.instructions.get? id, ∀ x ∈ i.reads.toList,
          Name.space x = .temporary → ∃ d ∈ i.dependsOn.toList,
            ((p.instructions.get? d).bind Instruction.assignee?) = some x) ∧ "save" ∈ ids.keys
        then some () else none) = some () := by
    decide +kernel
  obtain ⟨p, hp, hsome⟩ := Option.bind_eq_some_iff.1 hsome
  obtain ⟨c, hc, hsome⟩ := Option.bind_eq_some_iff.1 hsome
  obtain ⟨ids, hids, hsome⟩ := Option.bind_eq_some_iff.1 hsome
  rw [toOption_eq_some] at hp hc
  obtain ⟨⟨hdirect, hsave⟩, -⟩ := Option.ite_none_right_eq_some.1 hsome
  have hprepared : ∀ id ∈ ids.keys, p.instructions.Prepared id := by
    intro id hid i hi x hx htemporary
    obtain ⟨d, hd, hassignee⟩ := hdirect id hid i hi x hx htemporary
    obtain ⟨j, hj, hassignee⟩ := Option.bind_eq_some_iff.1 hassignee
    unfold Instruction.assignee? at hassignee
    split at hassignee
    · rename_i x' e haction
      obtain rfl := Option.some.inj hassignee
      exact ⟨d, j, e, .single ⟨i, hi, hd⟩, hj, haction⟩
    · cases hassignee
  exact ⟨p, c, ids, hp, hc, hids, hprepared, hsave,
    temporaries_defined_of_prepared hp hc hids hprepared _ Stepper.harmless_of_call 2⟩

end TimeMarch
