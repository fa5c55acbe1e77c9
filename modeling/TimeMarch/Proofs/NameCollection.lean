import TimeMarch.Proofs.PersistentNames
import TimeMarch.Proofs.Refusals

/-!
# Names Are Collected Before Lowering

Before an instruction is lowered, the names it mentions get their slots. Collecting goes over the
expressions in its own way, and lowering in another; but lowering comes across no name that was not
collected. So it only looks names up, and the new names of a table stand in it in increasing order,
however the expressions are put together.
-/

namespace TimeMarch

/-! ### What is asked of the tables -/

def Name.family (x : String) : Family :=
  if (Name.space x).isPersistent then .persistent else .ofState

def Instruction.variableSet (i : Instruction) : NameSet :=
  .ofList (i.reads.toList ++ i.assignee?.toList)

def Instruction.requests (i : Instruction) : List (Family × String) :=
  i.variableSet.toList.map (fun x => (Name.family x, x)) ++
    i.calls.toList.map fun f => (.function, f)

namespace Instruction

variable {i : Instruction}

lemma mem_variableSet {x : String} :
    x ∈ i.variableSet ↔ x ∈ i.reads ∨ i.assignee? = some x := by
  rw [variableSet, NameSet.mem_ofList, List.mem_append, NameSet.mem_toList, Option.mem_toList]

lemma mem_requests_of_mem_variableSet {x : String} (h : x ∈ i.variableSet) :
    (Name.family x, x) ∈ i.requests :=
  List.mem_append_left _ (List.mem_map_of_mem h)

lemma mem_requests_of_mem_calls {f : String} (h : f ∈ i.calls) : (.function, f) ∈ i.requests :=
  List.mem_append_right _ (List.mem_map_of_mem h)

end Instruction

/-! ### Rows of requests -/

namespace SymbolTable

variable {reserved : Std.TreeSet String} {t u : SymbolTable} {x : String} {k : ℕ}

lemma lt_of_intern (h : t.intern reserved x = .ok (k, u)) :
    k < tableLimit ∧ (t.symbols.keys ++ [x]).idxOf x = k := by
  have hrequest := request_fst reserved x t
  rw [intern_eq_ok_iff.1 h] at hrequest
  obtain ⟨hlt, rfl⟩ := operand_eq_ok.1 hrequest.symm
  exact ⟨hlt, rfl⟩

lemma keys_of_intern (h : t.intern reserved x = .ok (k, u)) :
    u.symbols.keys = if x ∈ t.symbols.keys then t.symbols.keys else t.symbols.keys ++ [x] := by
  have hkeys := keys_request reserved x t
  rw [intern_eq_ok_iff.1 h] at hkeys
  by_cases hx : x ∈ t.symbols.keys
  · rw [hkeys, if_neg fun hnew => hnew.1 hx, if_pos hx]
  · obtain ⟨hlt, hk⟩ := lt_of_intern h
    rw [List.idxOf_append_of_notMem hx, length_keys, List.idxOf_cons_self, Nat.add_zero] at hk
    rw [hkeys, if_pos ⟨hx, hk ▸ hlt⟩, if_neg hx]

lemma intern_of_slot? (h : t.slot? x = some k) (hk : k < tableLimit) :
    t.intern reserved x = .ok (k, t) := by
  rw [intern_eq_ok_iff, request_of_slot? h, operand, if_pos hk]

/-- The second table has the names of the first one and behind them, in increasing order, the new
ones among those that are asked for. -/
def GrownBy (asked : String → Prop) (t u : SymbolTable) : Prop :=
  ∃ new : List String, u.symbols.keys = t.symbols.keys ++ new ∧ new.Pairwise (· < ·) ∧
    ∀ x, x ∈ new ↔ asked x ∧ x ∉ t.symbols.keys

lemma GrownBy.congr {asked asked' : String → Prop} (h : GrownBy asked t u)
    (hiff : ∀ x, asked x ↔ asked' x) : GrownBy asked' t u := by
  obtain ⟨new, hkeys, hsorted, hmem⟩ := h
  exact ⟨new, hkeys, hsorted, fun x => by rw [hmem, hiff]⟩

end SymbolTable

namespace Scope

def Provides (g : Scope) (family : Family) (x : String) : Prop :=
  ∃ k < tableLimit, (g.table family).slot? x = some k

/-- What is mentioned has its slot; a function in the place of a variable has none. -/
def Offers (g : Scope) : Mention → Prop
  | .read x => Name.space x ≠ .function ∧ g.Provides (Name.family x) x
  | .call f => g.Provides .function f

/-- Two scopes have the same names, those of labels apart. -/
def SameNames (a b : Scope) : Prop := ∀ family, family ≠ .label → b.table family = a.table family

lemma setTable_table (g : Scope) (family : Family) :
    g.setTable (g.table family) family = g := by
  cases family <;> rfl

end Scope

namespace Lowering

variable {reserved : Std.TreeSet String} {a b c : Scope}

lemma intern_eq_ok {family : Family} {x : String} {k : ℕ} :
    intern reserved family x a = .ok (k, b) ↔
      ∃ t, (a.table family).intern reserved x = .ok (k, t) ∧ b = a.setTable t family := by
  constructor
  · intro h
    obtain ⟨t, ht, rfl⟩ := onPart_eq_ok h
    exact ⟨t, ht, Scope.setTable_setTable _ _ _ _⟩
  · rintro ⟨t, ht, rfl⟩
    refine bind_eq_ok.2 ⟨(k, t), ht, ?_⟩
    exact congrArg (fun g => Except.ok (k, g)) (Scope.setTable_setTable _ _ _ _)

variable (reserved) in
/-- The second scope is the first one after requests that were all granted. -/
inductive Granted : List (Family × String) → Scope → Scope → Prop where
  | nil (a : Scope) : Granted [] a a
  | cons {family : Family} {x : String} {k : ℕ} {rest : List (Family × String)} {a b c : Scope}
      (h : intern reserved family x a = .ok (k, b)) (hrest : Granted rest b c) :
      Granted ((family, x) :: rest) a c

lemma granted_cons {family : Family} {x : String} {rest : List (Family × String)} :
    Granted reserved ((family, x) :: rest) a c ↔
      ∃ k b, intern reserved family x a = .ok (k, b) ∧ Granted reserved rest b c := by
  constructor
  · intro h
    cases h with
    | cons h hrest => exact ⟨_, _, h, hrest⟩
  · rintro ⟨k, b, h, hrest⟩
    exact .cons h hrest

lemma granted_append {first second : List (Family × String)} :
    Granted reserved (first ++ second) a c ↔
      ∃ b, Granted reserved first a b ∧ Granted reserved second b c := by
  induction first generalizing a with
  | nil =>
    constructor
    · exact fun h => ⟨a, .nil a, h⟩
    · rintro ⟨b, hfirst, hsecond⟩
      cases hfirst
      exact hsecond
  | cons q first ih =>
    obtain ⟨family, x⟩ := q
    simp only [List.cons_append, granted_cons, ih]
    constructor
    · rintro ⟨k, d, h, b, hfirst, hsecond⟩
      exact ⟨b, ⟨k, d, h, hfirst⟩, hsecond⟩
    · rintro ⟨b, ⟨k, d, h, hfirst⟩, hsecond⟩
      exact ⟨k, d, h, b, hfirst, hsecond⟩

lemma Granted.le {l : List (Family × String)} (h : Granted reserved l a b) (family : Family) :
    (a.table family).Le (b.table family) := by
  induction h with
  | nil a => exact .refl _
  | cons h _ ih =>
    obtain ⟨t, ht, rfl⟩ := intern_eq_ok.1 h
    exact ((Scope.Le.setTable (SymbolTable.intern_eq_ok ht).1).table family).trans ih

lemma Granted.provides {l : List (Family × String)} (h : Granted reserved l a b) {family : Family}
    {x : String} (hx : (family, x) ∈ l) : b.Provides family x := by
  induction h with
  | nil a => cases hx
  | @cons family' y k rest a b c hgrant hrest ih =>
    rcases List.mem_cons.1 hx with heq | hx
    · obtain ⟨rfl, rfl⟩ := Prod.mk.inj heq
      obtain ⟨t, ht, rfl⟩ := intern_eq_ok.1 hgrant
      have hslot : ((a.setTable t family).table family).slot? x = some k := by
        rw [Scope.table_setTable, if_pos rfl]
        exact (SymbolTable.intern_eq_ok ht).2
      exact ⟨k, (SymbolTable.lt_of_intern ht).1, hrest.le family x k hslot⟩
    · exact ih hx

def namesOf (family : Family) (l : List (Family × String)) : List String :=
  (l.filter fun q => q.1 = family).map Prod.snd

/-- **New names stand in a table in the order of the requests.** -/
theorem Granted.keys_eq {l : List (Family × String)} (h : Granted reserved l a b) {family : Family}
    (hnodup : (namesOf family l).Nodup) :
    (b.table family).symbols.keys = (a.table family).symbols.keys ++
      (namesOf family l).filter fun x => x ∉ (a.table family).symbols.keys := by
  induction h with
  | nil a => simp [namesOf]
  | @cons family' x k rest a b c hgrant _ ih =>
    obtain ⟨t, ht, rfl⟩ := intern_eq_ok.1 hgrant
    by_cases hfamily : family' = family
    · subst hfamily
      have hnames : namesOf family' ((family', x) :: rest) = x :: namesOf family' rest := by
        simp [namesOf]
      rw [hnames, List.nodup_cons] at hnodup
      have hkeys := ih hnodup.2
      rw [Scope.table_setTable, if_pos rfl, SymbolTable.keys_of_intern ht] at hkeys
      rw [hkeys, hnames]
      by_cases hx : x ∈ (a.table family').symbols.keys
      · simp [hx]
      · -- the names to come are others, so it does not matter to them that this one is in
        have hrest : (namesOf family' rest).filter
              (fun y => y ∉ (a.table family').symbols.keys ++ [x]) =
            (namesOf family' rest).filter fun y => y ∉ (a.table family').symbols.keys := by
          refine List.filter_congr fun y hy => ?_
          have hne : y ≠ x := by
            rintro rfl
            exact hnodup.1 hy
          simp [hne]
        rw [if_neg hx, hrest]
        simp [hx]
    · have hnames : namesOf family ((family', x) :: rest) = namesOf family rest := by
        simp [namesOf, hfamily]
      rw [hnames] at hnodup ⊢
      have hkeys := ih hnodup
      rwa [Scope.table_setTable, if_neg hfamily] at hkeys

/-! ### Collecting the names of an instruction -/

lemma discard_eq_ok {α : Type} {x : Lowering α} :
    discard x a = .ok ((), b) ↔ ∃ r, x a = .ok (r, b) := by
  constructor
  · intro h
    obtain ⟨⟨r, b'⟩, hr, hpure⟩ := bind_eq_ok.1 h
    cases hpure
    exact ⟨r, hr⟩
  · rintro ⟨r, hr⟩
    exact bind_eq_ok.2 ⟨(r, b), hr, rfl⟩

lemma exists_variableSlot {id x : String} :
    (∃ slot, variableSlot reserved id x a = .ok (slot, b)) ↔
      Name.space x ≠ .function ∧ ∃ k, intern reserved (Name.family x) x a = .ok (k, b) := by
  have hslot : ∀ (family : Family) (wrap : ℕ → Slot),
      (∃ slot, (do return wrap (← intern reserved family x) : Lowering Slot) a = .ok (slot, b)) ↔
        ∃ k, intern reserved family x a = .ok (k, b) := by
    intro family wrap
    constructor
    · rintro ⟨slot, h⟩
      obtain ⟨⟨k, b'⟩, hk, hpure⟩ := bind_eq_ok.1 h
      cases hpure
      exact ⟨k, hk⟩
    · rintro ⟨k, hk⟩
      exact ⟨wrap k, bind_eq_ok.2 ⟨(k, b), hk, rfl⟩⟩
  unfold variableSlot Name.family
  by_cases hfunction : Name.space x = .function
  · rw [if_pos hfunction]
    constructor
    · rintro ⟨slot, h⟩
      cases h
    · exact fun h => absurd hfunction h.1
  · rw [if_neg hfunction]
    by_cases hpersistent : (Name.space x).isPersistent = true
    · rw [if_pos hpersistent, if_pos hpersistent, hslot]
      exact (and_iff_right hfunction).symm
    · rw [if_neg hpersistent, if_neg hpersistent, hslot]
      exact (and_iff_right hfunction).symm

lemma forM_eq_ok_iff_granted {f : String → Lowering Unit} {q : String → Family × String}
    {P : String → Prop} (hf : ∀ x a b, f x a = .ok ((), b) ↔
      P x ∧ ∃ k, intern reserved (q x).1 (q x).2 a = .ok (k, b)) {l : List String} :
    l.forM f a = .ok ((), b) ↔ (∀ x ∈ l, P x) ∧ Granted reserved (l.map q) a b := by
  induction l generalizing a with
  | nil =>
    constructor
    · intro h
      cases h
      exact ⟨by simp, .nil _⟩
    · rintro ⟨-, h⟩
      cases h
      rfl
  | cons x l ih =>
    rw [List.map_cons, List.forall_mem_cons]
    constructor
    · intro h
      obtain ⟨⟨_, d⟩, hx, hl⟩ := bind_eq_ok.1 h
      obtain ⟨hP, k, hk⟩ := (hf x a d).1 hx
      obtain ⟨hPs, hrest⟩ := ih.1 hl
      exact ⟨⟨hP, hPs⟩, .cons hk hrest⟩
    · rintro ⟨⟨hP, hPs⟩, hgranted⟩
      obtain ⟨k, d, hk, hrest⟩ := granted_cons.1 hgranted
      exact bind_eq_ok.2 ⟨((), d), (hf x a d).2 ⟨hP, k, hk⟩, ih.2 ⟨hPs, hrest⟩⟩

lemma forM_variableSlot_eq_ok {id : String} {l : List String} :
    l.forM (fun x => discard (variableSlot reserved id x)) a = .ok ((), b) ↔
      (∀ x ∈ l, Name.space x ≠ .function) ∧
        Granted reserved (l.map fun x => (Name.family x, x)) a b :=
  forM_eq_ok_iff_granted (q := fun x => (Name.family x, x))
    (P := fun x => Name.space x ≠ .function) fun _ _ _ => discard_eq_ok.trans exists_variableSlot

lemma forM_function_eq_ok {l : List String} :
    l.forM (fun f => discard (intern reserved .function f)) a = .ok ((), b) ↔
      Granted reserved (l.map fun f => (.function, f)) a b := by
  rw [forM_eq_ok_iff_granted (q := fun f => (.function, f)) (P := fun _ => True) fun f a b =>
    discard_eq_ok.trans (and_iff_right trivial).symm]
  exact and_iff_right fun _ _ => trivial

/-- **Collecting names is making requests in sorted order.** -/
theorem internNames_eq_ok {i : Instruction} :
    internNames reserved i a = .ok ((), b) ↔
      (∀ x ∈ i.variableSet, Name.space x ≠ .function) ∧ Granted reserved i.requests a b := by
  rw [Instruction.requests, granted_append]
  constructor
  · intro h
    obtain ⟨⟨_, d⟩, hfirst, hsecond⟩ := bind_eq_ok.1 h
    obtain ⟨hspaces, hfirst⟩ := forM_variableSlot_eq_ok.1 hfirst
    exact ⟨hspaces, d, hfirst, forM_function_eq_ok.1 hsecond⟩
  · rintro ⟨hspaces, d, hfirst, hsecond⟩
    exact bind_eq_ok.2 ⟨((), d), forM_variableSlot_eq_ok.2 ⟨hspaces, hfirst⟩,
      forM_function_eq_ok.2 hsecond⟩

/-- **All that the expressions mention is collected.** -/
theorem offers_of_granted {i : Instruction} (h : Granted reserved i.requests a b)
    (hspaces : ∀ x ∈ i.variableSet, Name.space x ≠ .function) {m : Mention}
    (hm : m ∈ Expr.listMentionsOnto i.expressions []) : b.Offers m := by
  cases m with
  | read x =>
    have hx : x ∈ i.variableSet := Instruction.mem_variableSet.2 (.inl (mem_reads.2 hm))
    exact ⟨hspaces x hx, h.provides (Instruction.mem_requests_of_mem_variableSet hx)⟩
  | call f =>
    exact h.provides (Instruction.mem_requests_of_mem_calls (Instruction.mem_calls.2 hm))

lemma family_ne_function (x : String) : Name.family x ≠ .function := by
  unfold Name.family
  split <;> simp

lemma namesOf_requests (i : Instruction) {family : Family} (h : family ≠ .function) :
    namesOf family i.requests = i.variableSet.toList.filter fun x => Name.family x = family := by
  simp [namesOf, Instruction.requests, List.filter_map, Function.comp_def, Ne.symm h]

lemma namesOf_function_requests (i : Instruction) :
    namesOf .function i.requests = i.calls.toList := by
  simp [namesOf, Instruction.requests, List.filter_map, Function.comp_def, family_ne_function]

lemma pairwise_namesOf_requests (i : Instruction) (family : Family) :
    (namesOf family i.requests).Pairwise (· < ·) := by
  by_cases h : family = .function
  · rw [h, namesOf_function_requests]
    exact i.calls.sorted
  · rw [namesOf_requests i h]
    exact i.variableSet.sorted.filter _

lemma grownBy_of_granted {i : Instruction} (h : Granted reserved i.requests a b) (family : Family) :
    (a.table family).GrownBy (· ∈ namesOf family i.requests) (b.table family) := by
  have hsorted := pairwise_namesOf_requests i family
  have hnodup : (namesOf family i.requests).Nodup := by
    apply List.Pairwise.imp _ hsorted
    rintro x y hlt rfl
    exact String.lt_irrefl x hlt
  refine ⟨_, h.keys_eq hnodup, hsorted.filter _, fun x => ?_⟩
  simp

structure Collected (i : Instruction) (a b : Scope) : Prop where
  persistent : a.persistent.GrownBy (fun x => (x ∈ i.reads ∨ i.assignee? = some x) ∧
    (Name.space x).isPersistent = true) b.persistent
  locals : a.locals.GrownBy (fun x => (x ∈ i.reads ∨ i.assignee? = some x) ∧
    (Name.space x).isPersistent = false) b.locals
  functions : a.functions.GrownBy (· ∈ i.calls) b.functions

lemma collected_of_granted {i : Instruction} (h : Granted reserved i.requests a b) :
    Collected i a b where
  persistent := by
    refine (grownBy_of_granted h .persistent).congr fun x => ?_
    rw [namesOf_requests i (by simp), List.mem_filter, NameSet.mem_toList,
      Instruction.mem_variableSet]
    simp [Name.family]
  locals := by
    refine (grownBy_of_granted h .ofState).congr fun x => ?_
    rw [namesOf_requests i (by simp), List.mem_filter, NameSet.mem_toList,
      Instruction.mem_variableSet]
    simp [Name.family]
  functions := by
    refine (grownBy_of_granted h .function).congr fun f => ?_
    rw [namesOf_function_requests, NameSet.mem_toList]

lemma Collected.of_sameNames {i : Instruction} (h : Collected i a b) (hsame : b.SameNames c) :
    Collected i a c where
  persistent := by
    have htable : c.persistent = b.persistent := hsame .persistent (by simp)
    exact htable ▸ h.persistent
  locals := by
    have htable : c.locals = b.locals := hsame .ofState (by simp)
    exact htable ▸ h.locals
  functions := by
    have htable : c.functions = b.functions := hsame .function (by simp)
    exact htable ▸ h.functions

/-! ### Lowering looks names up -/

/-- A failure that is about no variable and no function: none is in the place of the other, and a
table of names is full for a label only. -/
def SparesNames (labels : Prop) : CodeError → Prop
  | .invalidVariable _ _ => False
  | .tableOverflow .symbol => labels
  | _ => True

section

variable {α β : Type} {g : Scope} {labels : Prop} {x : Lowering α} {f : α → Lowering β}

/-- Starting with the names of `g`, a lowering gives out no new name: it leaves the same names or
fails for another reason. -/
def LooksUp (g : Scope) (labels : Prop) (x : Lowering α) : Prop :=
  ∀ a, g.SameNames a → (∀ r b, x a = .ok (r, b) → g.SameNames b) ∧
    TimeMarch.FailsWith (SparesNames labels) (x a)

lemma LooksUp.of_keeps (hkeeps : Keeps g.SameNames x) (hfails : FailsWith (SparesNames labels) x) :
    LooksUp g labels x :=
  fun a hsame => ⟨fun r b hb => hkeeps a r b hb hsame, hfails a⟩

lemma LooksUp.pure (r : α) : LooksUp g labels (pure r) := .of_keeps (.pure r) (.pure r)

lemma LooksUp.bind (hx : LooksUp g labels x) (hf : ∀ r, LooksUp g labels (f r)) :
    LooksUp g labels (x >>= f) := by
  intro a hsame
  obtain ⟨hkeeps, hfails⟩ := hx a hsame
  constructor
  · intro s c hc
    obtain ⟨⟨r, b⟩, hb, hc⟩ := bind_eq_ok.1 hc
    exact (hf r b (hkeeps r b hb)).1 s c hc
  · exact hfails.bind fun r hr => (hf r.1 r.2 (hkeeps r.1 r.2 hr)).2

lemma looksUp_intern {family : Family} {y : String} (h : g.Provides family y)
    (hfamily : family ≠ .label) : LooksUp g labels (intern reserved family y) := by
  obtain ⟨k, hk, hslot⟩ := h
  intro a hsame
  rw [← hsame family hfamily] at hslot
  have hknown : intern reserved family y a = .ok (k, a) :=
    intern_eq_ok.2 ⟨_, SymbolTable.intern_of_slot? hslot hk, (a.setTable_table family).symm⟩
  rw [hknown]
  refine ⟨fun r b hb => ?_, .ok _⟩
  cases hb
  exact hsame

lemma looksUp_label (l : String) (h : labels) : LooksUp g labels (intern reserved .label l) := by
  refine .of_keeps (fun a j b hb hsame family hfamily => ?_) (intern_failsWith h .label l)
  obtain ⟨t, -, rfl⟩ := intern_eq_ok.1 hb
  rw [Scope.table_setTable, if_neg hfamily.symm]
  exact hsame family hfamily

lemma keeps_onPart {τ : Type} [Inhabited τ] {get : Scope → τ} {put : τ → Scope → Scope}
    {f : τ → Except CodeError (α × τ)}
    (hput : ∀ part a family, (put part a).table family = a.table family) :
    Keeps g.SameNames (onPart get put f) := by
  intro a r b hb hsame family hfamily
  obtain ⟨part, -, rfl⟩ := onPart_eq_ok hb
  rw [hput, hput]
  exact hsame family hfamily

lemma composes_looksUp : Composes fun _ _ x => LooksUp g labels x := by
  have htable : ∀ table, table ≠ .symbol → SparesNames labels (.tableOverflow table) := by
    intro table hne
    cases table with
    | symbol => exact absurd rfl hne
    | literal | keyword | raise | state | argument => trivial
  have hfails := composes_failsWith htable fun _ _ => trivial
  exact {
    pure := .pure
    bind := fun hx hf => hx.bind hf
    literal := fun v => .of_keeps
      (keeps_onPart fun _ _ family => by cases family <;> rfl) (hfails.literal v)
    keywordSet := fun names => .of_keeps
      (keeps_onPart fun _ _ family => by cases family <;> rfl) (hfails.keywordSet names)
    raise := fun kind message => .of_keeps
      (keeps_onPart fun _ _ family => by cases family <;> rfl) (hfails.raise kind message)
    jumpOver := fun distance => .of_keeps (keeps_jumpOver distance) (hfails.jumpOver distance)
    tooMany := fun f => .of_keeps .throw_bind (hfails.tooMany f) }

lemma looksUp_variableSlot {id y : String} (h : g.Offers (.read y)) :
    LooksUp g labels (variableSlot reserved id y) := by
  obtain ⟨hspace, hslot⟩ := h
  unfold Name.family at hslot
  rw [variableSlot, if_neg hspace]
  split at hslot
  · rw [if_pos ‹_›]
    exact (looksUp_intern hslot (by simp)).bind fun k => .pure _
  · rw [if_neg ‹_›]
    exact (looksUp_intern hslot (by simp)).bind fun k => .pure _

lemma allowsAll_looksUp (p : Program) {i : Instruction}
    (h : ∀ m ∈ Expr.listMentionsOnto i.expressions [], g.Offers m)
    (hassignee : ∀ y, i.assignee? = some y → g.Offers (.read y)) :
    AllowsAll (fun _ _ x => LooksUp g
      (∃ time timeId value component, i.action = .emit time timeId value component) x)
      p reserved i where
  mention m hm := by
    cases m with
    | read y => exact looksUp_variableSlot (h _ hm)
    | call f => exact looksUp_intern (h _ hm) (by simp)
  assignee y hy := looksUp_variableSlot (hassignee y hy)
  label _ _ _ _ hemit l := looksUp_label l ⟨_, _, _, _, hemit⟩
  transition next _ := by
    -- whether or not there is the state, finding its place is not about names
    refine .of_keeps .lift (.lift ?_)
    unfold stateIndex
    split
    · exact operand_failsWith trivial _
    · exact .error trivial

lemma looksUp_instruction {p : Program} {i : Instruction}
    (h : AllowsAll (fun _ _ x => LooksUp g labels x) p reserved i) :
    LooksUp g labels (instruction p reserved i) := by
  cases harms : i.arms? with
  | none => exact composes_looksUp.instruction h harms
  | some arms =>
    obtain ⟨c, y, n, haction, -⟩ := expressions_of_arms harms
    rw [instruction, haction]
    exact .pure _

end

/-- **Lowering an instruction meets no name that was not collected for it.** Once the names are
collected, the tables of variables and functions stay as they are while the condition or the whole
instruction is lowered. No function is found in the place of a variable, and no table of names turns
out to be full, if not for a label. So a table gets the new names of an instruction in increasing
order, and another instruction that mentions the same names leaves the same tables. -/
theorem names_collected_before_lowering {reserved : Std.TreeSet String} {i : Instruction}
    {a b : Scope} (h : internNames reserved i a = .ok ((), b)) :
    Collected i a b ∧
    (∀ j : Instruction, j.reads = i.reads → j.assignee? = i.assignee? → j.calls = i.calls →
      internNames reserved j a = .ok ((), b)) ∧
    ∀ (p : Program) (lowered : Lowering Fragment), lowered = instruction p reserved i ∨
        lowered = exprs reserved i.id i.expressions →
      (∀ code c, lowered b = .ok (code, c) → b.SameNames c ∧ Collected i a c) ∧
      ∀ e, lowered b = .error e → (∀ name id, e ≠ .invalidVariable name id) ∧
        (e = .tableOverflow .symbol →
          ∃ time timeId value component, i.action = .emit time timeId value component) := by
  obtain ⟨hspaces, hgranted⟩ := internNames_eq_ok.1 h
  have hcollected := collected_of_granted hgranted
  have hmentions : ∀ m ∈ Expr.listMentionsOnto i.expressions [], b.Offers m :=
    fun m hm => offers_of_granted hgranted hspaces hm
  have hassignee : ∀ y, i.assignee? = some y → b.Offers (.read y) := by
    intro y hy
    have hmem : y ∈ i.variableSet := Instruction.mem_variableSet.2 (.inr hy)
    exact ⟨hspaces y hmem, hgranted.provides (Instruction.mem_requests_of_mem_variableSet hmem)⟩
  refine ⟨hcollected, fun j hreads hwrites hcalls => ?_, fun p lowered hlowered => ?_⟩
  · have hvariables : j.variableSet = i.variableSet := by
      rw [Instruction.variableSet, Instruction.variableSet, hreads, hwrites]
    have hrequests : j.requests = i.requests := by
      rw [Instruction.requests, Instruction.requests, hvariables, hcalls]
    rw [internNames_eq_ok, hvariables, hrequests]
    exact ⟨hspaces, hgranted⟩
  · have hallows : AllowsAll (fun _ _ x => LooksUp b (∃ time timeId value component,
        i.action = .emit time timeId value component) x) p reserved i :=
      allowsAll_looksUp p hmentions hassignee
    have hlooksUp : LooksUp b
        (∃ time timeId value component, i.action = .emit time timeId value component) lowered := by
      rcases hlowered with rfl | rfl
      · exact looksUp_instruction hallows
      · exact composes_looksUp.exprs i.expressions hallows.mention
    obtain ⟨hkeeps, hfails⟩ := hlooksUp b fun _ _ => rfl
    constructor
    · intro code c hc
      have hsame := hkeeps code c hc
      exact ⟨hsame, hcollected.of_sameNames hsame⟩
    · intro e he
      have hspares := hfails e he
      constructor
      · rintro name id rfl
        exact hspares
      · rintro rfl
        exact hspares

lemma exists_of_then_eq_ok {α : Type} {x : Lowering Unit} {y : Lowering α} {r : α}
    (h : (x >>= fun _ => y) a = .ok (r, c)) : ∃ b, x a = .ok ((), b) ∧ y b = .ok (r, c) := by
  obtain ⟨⟨_, b⟩, hb, hc⟩ := bind_eq_ok.1 h
  exact ⟨b, hb, hc⟩

def mixedNames : Instruction where
  id := "advance"
  action := .assign "<p>z" (.cond (.binary .gt (.var "y") (.var "<t>"))
    (.call "f" [.var "c"] [("rate", .var "b")]) (.call "<func>g" [.var "<state>u"] []))

def timeAndStepSize : Scope :=
  { persistent := (SymbolTable.ofList [timeName, stepSizeName]).toOption.getD {} }

theorem names_collected_before_lowering_mixed : ∃ b code c,
    internNames ∅ mixedNames timeAndStepSize = .ok ((), b) ∧
    exprs ∅ mixedNames.id mixedNames.expressions b = .ok (code, c) ∧ b.SameNames c ∧
    c.persistent.symbols.keys = ["<t>", "<dt>", "<p>z", "<state>u"] ∧
    c.locals.symbols.keys = ["b", "c", "y"] ∧ c.functions.symbols.keys = ["<func>g", "f"] := by
  have hrun : ((internNames ∅ mixedNames >>= fun _ =>
        exprs ∅ mixedNames.id mixedNames.expressions) timeAndStepSize).toOption.map (fun r =>
          (r.2.persistent.symbols.keys, r.2.locals.symbols.keys, r.2.functions.symbols.keys)) =
      some (["<t>", "<dt>", "<p>z", "<state>u"], ["b", "c", "y"], ["<func>g", "f"]) := by
    decide +kernel
  obtain ⟨⟨code, c⟩, hc, hkeys⟩ := Option.map_eq_some_iff.1 hrun
  obtain ⟨b, hb, hc⟩ := exists_of_then_eq_ok (toOption_eq_some.1 hc)
  simp only [Prod.mk.injEq] at hkeys
  obtain ⟨hpersistent, hlocals, hfunctions⟩ := hkeys
  have hlookup := ((names_collected_before_lowering hb).2.2 ⟨.empty, .empty, ""⟩ _ (.inr rfl)).1
  exact ⟨b, code, c, hb, hc, (hlookup code c hc).1, hpersistent, hlocals, hfunctions⟩

end Lowering

end TimeMarch
