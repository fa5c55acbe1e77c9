import TimeMarch.Proofs.Composition
import TimeMarch.Proofs.EqualValues

/-!
# What Literals Read As

The literals of a program stand in one table, and those that are equal share a place. So a literal
reads as the first one that was lowered of those that are equal to it, in whatever state that one
is. It reads as it was written unless one of its zeros has got another sign.
-/

namespace TimeMarch

/-! ### A pool of values -/

/-- The first value of a list that equals the given one. If there is none, which is so when there is
a NaN in it, the value stands for itself. -/
def firstEqual (l : List Value) (v : Value) : Value := (l.find? (· == v)).getD v

def addTo (entries : Array Value) (v : Value) : Array Value :=
  if entries.any (· == v) then entries else entries.push v

lemma find?_addTo (entries : Array Value) (v u : Value) :
    (addTo entries v).find? (· == u) = (entries.find? (· == u)).or ([v].find? (· == u)) := by
  unfold addTo
  split
  · rename_i hany
    obtain ⟨w, hw, hwv⟩ := Array.any_eq_true'.1 hany
    by_cases hvu : (v == u) = true
    · -- what stands for `v` is found for `u`, too
      have hwu : (w == u) = true := by rwa [← Value.beq_congr hvu w]
      have hsome : (entries.find? (· == u)).isSome = true := Array.find?_isSome.2 ⟨w, hw, hwu⟩
      rw [Option.or_of_isSome hsome]
    · simp [hvu]
  · rw [Array.find?_push, List.find?_singleton]

lemma find?_foldl_addTo (l : List Value) (entries : Array Value) (u : Value) :
    (l.foldl addTo entries).find? (· == u) =
      (entries.find? (· == u)).or (l.find? (· == u)) := by
  induction l generalizing entries with
  | nil => simp
  | cons v l ih =>
    rw [List.foldl_cons, ih, find?_addTo, Option.or_assoc]
    congr 1
    rw [List.find?_cons, List.find?_cons]
    split <;> simp

lemma Tables.read_eq_firstEqual {t : Tables} {l : List Value}
    (h : t.literals = l.foldl addTo #[]) (v : Value) : t.read v = firstEqual l v := by
  have hfind : t.literals.find? (· == v) = l.find? (· == v) := by
    rw [h, find?_foldl_addTo]
    simp
  unfold read pooled firstEqual
  split
  · rw [hfind]
  · rename_i hself
    have hnone : l.find? (· == v) = none :=
      List.find?_eq_none.2 fun w _ hw => hself (Value.beq_self_of_beq hw)
    rw [hnone, Option.getD_none]

lemma unsignedZeros_firstEqual (l : List Value) (v : Value) :
    (firstEqual l v).unsignedZeros = v.unsignedZeros := by
  unfold firstEqual
  cases hfind : l.find? (· == v) with
  | none => rfl
  | some w =>
    have hequal : (w == v) = true := by simpa using List.find?_some hfind
    exact (Value.beq_iff.1 hequal).2

lemma firstEqual_congr {l : List Value} {v w : Value} (hv : v ∈ l) (h : (v == w) = true) :
    firstEqual l v = firstEqual l w := by
  have hpred : (fun u : Value => u == v) = fun u => u == w := funext (Value.beq_congr h)
  have hsome : (l.find? (· == w)).isSome = true := List.find?_isSome.2 ⟨v, hv, h⟩
  obtain ⟨u, hu⟩ := Option.isSome_iff_exists.1 hsome
  rw [firstEqual, firstEqual, hpred, hu]
  rfl

lemma firstEqual_identical_iff (l : List Value) :
    (∀ v ∈ l, (firstEqual l v).Identical v) ↔
      ∀ v ∈ l, ∀ w ∈ l, (v == w) = true → v.Identical w := by
  simp only [Value.identical_iff]
  constructor
  · intro hfirst v hv w hw heq
    rw [← hfirst v hv, firstEqual_congr hv heq, hfirst w hw]
  · intro hequal v hv
    unfold firstEqual
    cases hfind : l.find? (· == v) with
    | none => rfl
    | some w =>
      have heq : (w == v) = true := by simpa using List.find?_some hfind
      exact hequal w (List.mem_of_find?_eq_some hfind) v hv heq

/-! ### The literals that are lowered -/

def State.literals (s : InstructionSet) (st : State) : List Value :=
  ((Schedule.ofRoots s st.roots).toOption.map (Step.listLiterals s)).getD []

lemma State.literals_eq {s : InstructionSet} {st : State} {steps : List Step}
    (h : Schedule.ofRoots s st.roots = .ok steps) :
    st.literals s = Step.listLiterals s steps := by
  rw [literals, h]
  rfl

/-- All literals that are lowered, state by state. -/
def Program.lowered (p : Program) : List Value :=
  p.states.values.flatMap (State.literals p.instructions)

lemma Expr.listLiterals_append (l l' : List Expr) :
    listLiterals (l ++ l') = listLiterals l ++ listLiterals l' := by
  induction l with
  | nil => rfl
  | cons e l ih => rw [List.cons_append, listLiterals, listLiterals, ih, List.append_assoc]

lemma Expr.keywordLiterals_eq (l : List (String × Expr)) :
    keywordLiterals l = listLiterals (l.map Prod.snd) := by
  induction l with
  | nil => rfl
  | cons e l ih => rw [keywordLiterals, List.map_cons, listLiterals, ih]

namespace Lowering

/-! ### What lowering adds to the table -/

/-- Whenever `x` succeeds, it has added the given literals to the table, one after the other. -/
def Adds {α : Type} (l : List Value) (x : Lowering α) : Prop :=
  ∀ scope a scope', x scope = .ok (a, scope') →
    scope'.literals = l.foldl addTo scope.literals

section

variable {α β : Type} {l l' : List Value} {x : Lowering α} {f : α → Lowering β}

lemma Adds.pure (a : α) : Adds [] (pure a) := by
  intro scope b scope' hx
  cases hx
  rfl

lemma Adds.throw_bind (l : List Value) {e : CodeError} :
    Adds l ((throw e : Lowering α) >>= f) := by
  intro scope b scope' hx
  cases hx

lemma Adds.throw (l : List Value) {e : CodeError} : Adds l (throw e : Lowering α) := by
  intro scope b scope' hx
  cases hx

lemma Adds.bind (hx : Adds l x) (hf : ∀ a, Adds l' (f a)) : Adds (l ++ l') (x >>= f) := by
  intro scope b scope'' h
  obtain ⟨⟨a, scope'⟩, ha, hb⟩ := bind_eq_ok.1 h
  rw [List.foldl_append, ← hx scope a scope' ha]
  exact hf a scope' b scope'' hb

lemma Adds.lift {y : Except CodeError α} : Adds [] (liftM y : Lowering α) := by
  intro scope a scope' h
  obtain ⟨b, -, hpure⟩ := bind_eq_ok.1 h
  cases hpure
  rfl

end

variable {reserved : Std.TreeSet String}

lemma pool_literal_eq_ok {v : Value} {entries entries' : Array Value} {i : ℕ}
    (h : pool .literal v entries = .ok (i, entries')) : entries' = addTo entries v := by
  unfold pool at h
  split at h
  · rename_i k hk
    obtain ⟨j, -, h⟩ := bind_eq_ok.1 h
    cases h
    have hfind : entries.findIdx? (· == v) = some k := by
      split at hk
      · exact hk
      · cases hk
    obtain ⟨hlt, heq, -⟩ := Array.findIdx?_eq_some_iff_getElem.1 hfind
    have hany : entries.any (· == v) = true := Array.any_eq_true.2 ⟨k, hlt, heq⟩
    rw [addTo, if_pos hany]
  · rename_i hnone
    obtain ⟨j, -, h⟩ := bind_eq_ok.1 h
    cases h
    have hany : ¬entries.any (· == v) = true := by
      rw [Array.any_eq_true']
      rintro ⟨w, hw, hwv⟩
      rw [if_pos (Value.beq_self_of_beq hwv), Array.findIdx?_eq_none_iff] at hnone
      exact absurd hwv (by simp [hnone w hw])
    rw [addTo, if_neg hany]

lemma adds_intern (family : Family) (name : String) : Adds [] (intern reserved family name) := by
  intro scope i scope' h
  obtain ⟨t, -, rfl⟩ := onPart_eq_ok h
  cases family <;> rfl

lemma adds_variableSlot (instruction x : String) :
    Adds [] (variableSlot reserved instruction x) := by
  unfold variableSlot
  split
  · exact .throw []
  · split
    · exact (adds_intern .persistent x).bind fun i => .pure _
    · exact (adds_intern .ofState x).bind fun i => .pure _

lemma composes_adds : Composes fun _ l x => Adds l x := by
  constructor
  case pure => exact Adds.pure
  case bind => exact fun hx hf => hx.bind hf
  case tooMany => exact fun _ => .throw_bind []
  case literal =>
    intro v scope i scope' h
    obtain ⟨part, hpart, rfl⟩ := onPart_eq_ok h
    exact pool_literal_eq_ok hpart
  case keywordSet | raise =>
    intros
    intro scope i scope' h
    obtain ⟨part, -, rfl⟩ := onPart_eq_ok h
    rfl
  case jumpOver =>
    intro distance
    unfold jumpOver
    split
    · exact .pure _
    · exact .throw []

variable {p : Program}

lemma literals_of_state {st : State} {t t' : Tables} {sc : StateCode}
    (h : Lowering.state p reserved st t = .ok (sc, t')) :
    t'.literals = (st.literals p.instructions).foldl addTo t.literals := by
  obtain ⟨steps, next, code, scope, hroots, hshaped, -, hcode, -, rfl⟩ := exists_of_state_eq_ok h
  have hadds : Adds (Step.listLiterals p.instructions steps)
      (Lowering.steps p reserved st.name steps) :=
    composes_adds.steps hshaped fun _ _ i _ => .of_forall (adds_variableSlot i.id)
      (adds_intern .function) (adds_intern .label) fun _ => .lift
  rw [State.literals_eq hroots]
  exact hadds _ _ _ hcode

end Lowering

/-- **The table of literals** is what comes of adding one literal after the other. -/
theorem Code.literals_eq {p : Program} {reserved : List String} {c : Code}
    (h : Code.ofProgram reserved p = .ok c) : c.literals = p.lowered.foldl addTo #[] := by
  obtain ⟨words, -, h⟩ := bind_eq_ok.1 h
  obtain ⟨⟨_, t₁⟩, -, h⟩ := bind_eq_ok.1 h
  obtain ⟨⟨_, t₂⟩, -, h⟩ := bind_eq_ok.1 h
  obtain ⟨⟨states, tables⟩, hfold, h⟩ := bind_eq_ok.1 h
  obtain ⟨initial, -, h⟩ := bind_eq_ok.1 h
  cases h
  refine foldlM_induction (P := fun done b =>
    b.2.literals = (done.flatMap (State.literals p.instructions)).foldl addTo #[]) ?_ rfl hfold
  intro done b st b' hdone hb
  obtain ⟨⟨s, t⟩, hs, hpure⟩ := bind_eq_ok.1 hb
  cases hpure
  rw [List.flatMap_append, List.foldl_append, ← hdone, List.flatMap_singleton]
  exact Lowering.literals_of_state hs

/-! ### Where code reads literals -/

def Op.literal? : Op → Option ℕ
  | .literal i => some i
  | _ => none

def StateCode.literalPlaces (s : StateCode) : List ℕ := s.ops.toList.filterMap Op.literal?

def Tables.Holds (t : Tables) (l : List Value) (places : List ℕ) : Prop :=
  List.Forall₂ (fun v i => t.literals[i]? = some (t.read v)) l places

lemma Tables.Holds.append {t : Tables} {l l' : List Value} {places places' : List ℕ}
    (h : t.Holds l places) (h' : t.Holds l' places') : t.Holds (l ++ l') (places ++ places') :=
  List.rel_append h h'

lemma Lowering.Slot.literal?_load (slot : Slot) : slot.load.literal? = none := by
  cases slot <;> rfl

lemma Lowering.Slot.literal?_store (slot : Slot) : slot.store.literal? = none := by
  cases slot <;> rfl

section

variable {literals : List Value} {g : Scope}

lemma ExprCode.holds {l : List Expr} {code : List Op} (h : ExprCode literals g l code) :
    g.Holds (Expr.listLiterals l) (code.filterMap Op.literal?) := by
  induction h with
  | nil => exact .nil
  | literal hi _ _ _ ih => exact .cons hi ih
  | @var x slot rest k _ _ ih =>
    rw [List.filterMap_cons_none slot.literal?_load]
    exact ih
  | unary _ _ ihx ihrest =>
    simp only [Expr.listLiterals, Expr.literals, List.append_nil] at ihx ⊢
    rw [List.filterMap_append]
    exact ihx.append ihrest
  | binary _ _ ihlr ihrest =>
    simp only [Expr.listLiterals, Expr.literals, List.append_nil] at ihlr ⊢
    rw [List.filterMap_append]
    exact ihlr.append ihrest
  | call _ _ _ _ ihargs ihrest =>
    rw [Expr.listLiterals_append, ← Expr.keywordLiterals_eq] at ihargs
    simp only [Expr.listLiterals, Expr.literals]
    rw [List.filterMap_append]
    exact ihargs.append ihrest
  | cond _ _ _ _ ihc ihy ihn ihrest =>
    simp only [Expr.listLiterals, Expr.literals, List.append_nil, List.append_assoc]
      at ihc ihy ihn ⊢
    rw [List.filterMap_append]
    refine ihc.append ?_
    rw [List.filterMap_cons_none rfl, List.filterMap_append]
    refine ihy.append ?_
    rw [List.filterMap_cons_none rfl, List.filterMap_append]
    exact ihn.append ihrest

variable {p : Program}

lemma ActionCode.holds {i : Instruction} {code : List Op} (h : ActionCode p g i.action code) :
    g.Holds i.literals (code.filterMap Op.literal?) := by
  obtain ⟨id, dependsOn, action⟩ := i
  cases h with
  | @assign x e slot code he _ =>
    rw [List.filterMap_append, List.filterMap_cons_none slot.literal?_store, List.filterMap_nil,
      List.append_nil]
    exact he.holds
  | emit he _ _ =>
    rw [List.filterMap_append, List.filterMap_cons_none rfl, List.filterMap_nil, List.append_nil]
    exact he.holds
  | abort => exact .nil
  | raise _ => exact .nil
  | transition _ => exact .nil

lemma ExprCode.holds_condition {c : Expr} {code : List Op} (h : ExprCode literals g [c] code)
    {id : String} {i : Instruction} {y n : NameSet} (hi : p.instructions.get? id = some i)
    (haction : i.action = .branch c y n) :
    g.Holds (p.instructions.literalsOf id) (code.filterMap Op.literal?) := by
  rw [InstructionSet.literalsOf_eq hi, Instruction.literals, Instruction.expressions, haction]
  exact h.holds

lemma StepCode.holds {l : List Step} {code : List Op} (h : StepCode p g l code) :
    g.Holds (Step.listLiterals p.instructions l) (code.filterMap Op.literal?) := by
  induction h with
  | nil => exact .nil
  | run hi hcode _ ih =>
    rw [Step.listLiterals, Step.literals, InstructionSet.literalsOf_eq hi, List.filterMap_append]
    exact hcode.holds.append ih
  | ifOnly hi haction hc _ _ ihyes ihrest =>
    simp only [Step.listLiterals, Step.literals, List.append_nil, List.append_assoc]
    rw [List.filterMap_append]
    refine (hc.holds_condition hi haction).append ?_
    rw [List.filterMap_cons_none rfl, List.filterMap_append]
    exact ihyes.append ihrest
  | ifElse hi haction hc _ _ _ ihyes ihno ihrest =>
    simp only [Step.listLiterals, Step.literals, List.append_assoc]
    rw [List.filterMap_append]
    refine (hc.holds_condition hi haction).append ?_
    rw [List.filterMap_cons_none rfl, List.filterMap_append]
    refine ihyes.append ?_
    rw [List.filterMap_cons_none rfl, List.filterMap_append]
    exact ihno.append ihrest

lemma StateCode.Of.holds {t : Tables} {st : State} {sc : StateCode} (h : sc.Of p t st) :
    t.Holds (st.literals p.instructions) sc.literalPlaces := by
  obtain ⟨steps, body, hroots, hcode, hops⟩ := h.ops
  rw [State.literals_eq hroots, literalPlaces, hops, List.filterMap_append,
    List.filterMap_cons_none rfl, List.filterMap_nil, List.append_nil]
  exact hcode.holds

end

/-- **What literals read as.** In the code of an accepted program, each literal that is lowered is
read from a place of the table that holds the first of all lowered literals that are equal to it, a
value that is the same but for the signs of zeros. All literals are read as they are written exactly
if those that are equal are identical. -/
theorem literals_read_as_first_equal {instructions : InstructionSet} {states : List State}
    {initial : String} {p : Program} (hp : Program.create instructions states initial = .ok p)
    {reserved : List String} {c : Code} (hc : Code.ofProgram reserved p = .ok c) :
    (∀ (i : ℕ) st, p.states.values[i]? = some st → ∃ sc, c.state? i = some sc ∧
      List.Forall₂ (fun v place => c.literals[place]? = some (firstEqual p.lowered v))
        (st.literals p.instructions) sc.literalPlaces) ∧
    (∀ v ∈ p.lowered, (firstEqual p.lowered v).unsignedZeros = v.unsignedZeros) ∧
    ((∀ v ∈ p.lowered, (firstEqual p.lowered v).Identical v) ↔
      ∀ v ∈ p.lowered, ∀ w ∈ p.lowered, (v == w) = true → v.Identical w) := by
  have hof := Code.of_ofProgram (Program.accepted_of_create hp).name_eq hc
  refine ⟨fun i st hst => ?_, fun v _ => unsignedZeros_firstEqual p.lowered v,
    firstEqual_identical_iff p.lowered⟩
  obtain ⟨sc, hsc, hcode⟩ := hof.state i st hst
  refine ⟨sc, hsc, hcode.holds.imp fun v place hplace => ?_⟩
  rw [hplace, Tables.read_eq_firstEqual (Code.literals_eq hc)]

/-- The same literals in two states, a NaN and a zero with a sign among them. -/
def nanAndVector : InstructionSet :=
  let showSum (l r : Value) : Action :=
    .emit (.literal (.scalar 0)) "final" (.binary .add (.literal l) (.literal r)) "y"
  (InstructionSet.empty.addAll [
    ⟨"a", ∅, showSum (.vector [1, -0]) (.scalar Float.nan)⟩,
    ⟨"b", ∅, showSum (.scalar Float.nan) (.vector [1, -0])⟩]).toOption.getD .empty

/-- Equal literals share a place across states, a NaN gets a new one each time, and all of them read
as they are written. -/
theorem literals_read_as_first_equal_nanAndVector :
    ∃ (p : Program) (c : Code) (st : State) (sc : StateCode),
    Program.create nanAndVector [⟨"s", ["a"], "t"⟩, ⟨"t", ["b"], "s"⟩] "s" = .ok p ∧
    Code.ofProgram defaultReserved p = .ok c ∧
    p.states.values[1]? = some st ∧ c.state? 1 = some sc ∧ sc.literalPlaces = [0, 3, 1] ∧
    List.Forall₂ (fun v place => c.literals[place]? = some (firstEqual p.lowered v))
      (st.literals p.instructions) sc.literalPlaces ∧
    ∀ v ∈ p.lowered, (firstEqual p.lowered v).Identical v := by
  have hsome : ((Program.create nanAndVector [⟨"s", ["a"], "t"⟩, ⟨"t", ["b"], "s"⟩]
      "s").toOption.bind fun p => (Code.ofProgram defaultReserved p).toOption.bind fun c =>
        p.states.values[1]?.bind fun _ =>
          if (c.state? 1).map StateCode.literalPlaces = some [0, 3, 1] ∧
            ∀ v ∈ p.lowered, ∀ w ∈ p.lowered, (v == w) = true → v.Identical w
          then some () else none) = some () := by
    decide +kernel
  obtain ⟨p, hp, hsome⟩ := Option.bind_eq_some_iff.1 hsome
  obtain ⟨c, hc, hsome⟩ := Option.bind_eq_some_iff.1 hsome
  obtain ⟨st, hst, hsome⟩ := Option.bind_eq_some_iff.1 hsome
  rw [toOption_eq_some] at hp hc
  obtain ⟨hplaces, hequal⟩ := (Option.ite_none_right_eq_some.1 hsome).1
  obtain ⟨hread, -, hwritten⟩ := literals_read_as_first_equal hp hc
  obtain ⟨sc, hsc, hfirst⟩ := hread 1 st hst
  rw [hsc, Option.map_some, Option.some_inj] at hplaces
  exact ⟨p, c, st, sc, hp, hc, hst, hsc, hplaces, hfirst, hwritten.2 hequal⟩

def overNegativeZero : InstructionSet :=
  (InstructionSet.empty.addAll [
    ⟨"e", ∅, .emit (.literal (.scalar 0)) "final"
      (.binary .div (.literal (.scalar 1)) (.literal (.scalar (-0)))) "y"⟩]).toOption.getD .empty

/-- A negative zero that is lowered after a positive one is read as the positive one. -/
theorem negative_zero_reads_as_zero :
    ∃ (p : Program) (c : Code) (st : State) (sc : StateCode) (v w : Value),
    Program.create overNegativeZero [⟨"s", ["e"], "s"⟩] "s" = .ok p ∧
    Code.ofProgram defaultReserved p = .ok c ∧
    p.states.values[0]? = some st ∧ c.state? 0 = some sc ∧ sc.literalPlaces = [0, 1, 0] ∧
    (st.literals p.instructions)[2]? = some v ∧ v.Identical (.scalar (-0)) ∧
    c.literals[0]? = some w ∧ w.Identical (.scalar 0) ∧ ¬w.Identical v := by
  have hsome : ((Program.create overNegativeZero [⟨"s", ["e"], "s"⟩] "s").toOption.bind fun p =>
      (Code.ofProgram defaultReserved p).toOption.bind fun c =>
        p.states.values[0]?.bind fun (st : State) => (c.state? 0).bind fun sc =>
          (st.literals p.instructions)[2]?.bind fun (v : Value) =>
            c.literals[0]?.bind fun (w : Value) =>
              if sc.literalPlaces = [0, 1, 0] ∧ v.Identical (.scalar (-0)) ∧
                w.Identical (.scalar 0) ∧ ¬w.Identical v
              then some () else none) = some () := by
    decide +kernel
  obtain ⟨p, hp, hsome⟩ := Option.bind_eq_some_iff.1 hsome
  obtain ⟨c, hc, hsome⟩ := Option.bind_eq_some_iff.1 hsome
  obtain ⟨st, hst, hsome⟩ := Option.bind_eq_some_iff.1 hsome
  obtain ⟨sc, hsc, hsome⟩ := Option.bind_eq_some_iff.1 hsome
  obtain ⟨v, hv, hsome⟩ := Option.bind_eq_some_iff.1 hsome
  obtain ⟨w, hw, hsome⟩ := Option.bind_eq_some_iff.1 hsome
  rw [toOption_eq_some] at hp hc
  obtain ⟨hplaces, hnegative, hzero, hdiffer⟩ := (Option.ite_none_right_eq_some.1 hsome).1
  exact ⟨p, c, st, sc, v, w, hp, hc, hst, hsc, hplaces, hv, hnegative, hw, hzero, hdiffer⟩

end TimeMarch
