import TimeMarch.Proofs.Composition
import TimeMarch.Proofs.SymbolTables
import TimeMarch.Stepper

/-!
# Which Names Are Persistent

Lowering gives a variable a slot where its namespace says. So the persistent slots of generated code
belong to names with a tag, and each of them is its own key in a context.
-/

namespace TimeMarch

namespace Name

lemma head?_of_isPersistent {x : String} (h : (space x).isPersistent = true) :
    x.toList.head? = some '<' := by
  have hsplit : ∀ l : List (String × Namespace × String),
      (∀ e ∈ l, e.1.toList.head? = some '<') → (splitBy l x).1.isPersistent = true →
        x.toList.head? = some '<' := by
    intro l hl
    induction l with
    | nil => simp [splitBy, Namespace.isPersistent]
    | cons e l ih =>
      rw [List.forall_mem_cons] at hl
      unfold splitBy
      split
      · rename_i rest hrest
        intro _
        -- the tag is the beginning of the name
        obtain ⟨more, hmore, -⟩ := Option.map_eq_some_iff.1 hrest
        rw [← List.append_eq_of_isPrefixOf?_eq_some hmore, List.head?_append, hl.1]
        rfl
      · exact ih hl.2
  unfold space split at h
  split at h
  · subst x
    decide
  · split at h
    · subst x
      decide
    · exact hsplit tags (by decide) h

end Name

lemma Stepper.contextName_of_isPersistent {x : String} (h : (Name.space x).isPersistent = true) :
    contextName x = x :=
  if_pos (Name.head?_of_isPersistent h)

namespace Lowering

/-! ### What lowering keeps -/

/-- Whenever `x` succeeds, the scope is as `I` says, if it was before. -/
def Keeps {α : Type} (I : Scope → Prop) (x : Lowering α) : Prop :=
  ∀ scope a scope', x scope = .ok (a, scope') → I scope → I scope'

section

variable {α β : Type} {I : Scope → Prop} {x : Lowering α} {f : α → Lowering β}

lemma Keeps.pure (a : α) : Keeps I (pure a) := by
  intro scope b scope' hx h
  cases hx
  exact h

lemma Keeps.throw_bind {e : CodeError} : Keeps I ((throw e : Lowering α) >>= f) := by
  intro scope b scope' hx
  cases hx

lemma Keeps.throw {e : CodeError} : Keeps I (throw e : Lowering α) := by
  intro scope b scope' hx
  cases hx

lemma Keeps.bind (hx : Keeps I x) (hf : ∀ a, Keeps I (f a)) : Keeps I (x >>= f) := by
  intro scope b scope'' h hI
  obtain ⟨⟨a, scope'⟩, ha, hb⟩ := bind_eq_ok.1 h
  exact hf a scope' b scope'' hb (hx scope a scope' ha hI)

lemma Keeps.lift {y : Except CodeError α} : Keeps I (liftM y : Lowering α) := by
  intro scope a scope' h hI
  obtain ⟨b, -, hpure⟩ := bind_eq_ok.1 h
  cases hpure
  exact hI

lemma keeps_jumpOver (distance : ℕ) : Keeps I (jumpOver distance) := by
  unfold jumpOver
  split
  · exact .pure _
  · exact .throw

end

end Lowering

/-! ### The persistent slots -/

def Tables.Tagged (t : Tables) : Prop :=
  ∀ x ∈ t.persistent.symbols.keys, (Name.space x).isPersistent = true

lemma SymbolTable.mem_keys_of_intern {reserved : Std.TreeSet String} {x y : String}
    {t u : SymbolTable} {i : ℕ} (h : t.intern reserved x = .ok (i, u))
    (hy : y ∈ u.symbols.keys) : y ∈ t.symbols.keys ∨ y = x := by
  have hkeys := keys_request reserved x t
  rw [intern_eq_ok_iff.1 h] at hkeys
  rw [hkeys] at hy
  split at hy
  · simpa using hy
  · exact .inl hy

namespace Lowering

lemma composes_tagged : Composes fun _ _ x => Keeps (fun g => g.toTables.Tagged) x := by
  constructor
  case pure => exact Keeps.pure
  case bind => exact fun hx hf => hx.bind hf
  case jumpOver => exact keeps_jumpOver
  case tooMany => exact fun _ => .throw_bind
  case literal | keywordSet | raise =>
    intros
    intro scope i scope' h htagged
    obtain ⟨part, -, rfl⟩ := onPart_eq_ok h
    exact htagged

section

variable {reserved : Std.TreeSet String}

lemma keeps_tagged_intern {family : Family} {x : String}
    (hx : family = .persistent → (Name.space x).isPersistent = true) :
    Keeps (fun g => g.toTables.Tagged) (intern reserved family x) := by
  intro scope i scope' h htagged
  obtain ⟨t, ht, rfl⟩ := onPart_eq_ok h
  cases family with
  | persistent =>
    intro y hy
    rcases SymbolTable.mem_keys_of_intern ht hy with hy | rfl
    · exact htagged y hy
    · exact hx rfl
  | ofState => exact htagged
  | function => exact htagged
  | label => exact htagged

lemma keeps_tagged_variableSlot (id x : String) :
    Keeps (fun g => g.toTables.Tagged) (variableSlot reserved id x) := by
  unfold variableSlot
  split
  · exact .throw
  · split
    · -- the name gets a persistent slot because of its namespace
      exact (keeps_tagged_intern fun _ => ‹_›).bind fun i => .pure _
    · exact (keeps_tagged_intern (by simp)).bind fun i => .pure _

end

lemma tagged_of_state {p : Program} {reserved : Std.TreeSet String} {st : State} {t t' : Tables}
    {sc : StateCode} (h : Lowering.state p reserved st t = .ok (sc, t')) (ht : t.Tagged) :
    t'.Tagged := by
  obtain ⟨steps, next, code, scope, -, hshaped, -, hcode, -, rfl⟩ := exists_of_state_eq_ok h
  have hkeeps : Keeps (fun g => g.toTables.Tagged) (Lowering.steps p reserved st.name steps) :=
    composes_tagged.steps hshaped fun _ _ i _ => .of_forall (keeps_tagged_variableSlot i.id)
      (fun _ => keeps_tagged_intern (by simp)) (fun _ => keeps_tagged_intern (by simp))
      fun _ => .lift
  exact hkeeps _ _ _ hcode ht

end Lowering

/-- **Only names that survive a step have persistent slots.** -/
theorem Code.tagged {p : Program} {reserved : List String} {c : Code}
    (h : Code.ofProgram reserved p = .ok c) : c.toTables.Tagged := by
  obtain ⟨words, -, h⟩ := bind_eq_ok.1 h
  obtain ⟨⟨_, t₁⟩, ht₁, h⟩ := bind_eq_ok.1 h
  obtain ⟨⟨_, t₂⟩, ht₂, h⟩ := bind_eq_ok.1 h
  obtain ⟨⟨states, tables⟩, hfold, h⟩ := bind_eq_ok.1 h
  obtain ⟨initial, -, h⟩ := bind_eq_ok.1 h
  cases h
  have hbegin : Tables.Tagged { persistent := t₂ } := by
    intro x hx
    rcases SymbolTable.mem_keys_of_intern ht₂ hx with hx | rfl
    · rcases SymbolTable.mem_keys_of_intern ht₁ hx with hx | rfl
      · cases hx
      · decide
    · decide
  refine foldlM_induction (P := fun _ (b : Roster StateCode × Tables) => b.2.Tagged) ?_ hbegin hfold
  intro done b st b' hb hstep
  obtain ⟨⟨s, t⟩, hs, hpure⟩ := bind_eq_ok.1 hstep
  cases hpure
  exact Lowering.tagged_of_state hs hb

lemma Code.contextName_of_mem_keys {p : Program} {reserved : List String} {c : Code}
    (h : Code.ofProgram reserved p = .ok c) {x : String} (hx : x ∈ c.persistent.symbols.keys) :
    Stepper.contextName x = x :=
  Stepper.contextName_of_isPersistent (Code.tagged h x hx)

end TimeMarch
