import Mathlib.Logic.Relation
import TimeMarch.Measure
import TimeMarch.Proofs.Acceptance

/-!
# Which Programs Are Accepted

Nodes can be ordered exactly if no node waits for itself in the end. For the instructions that a
state reaches this says that no circle of dependencies and arms can be entered from its roots. With
it, acceptance is described by what the parts of a program refer to, without a word about walks and
orders.
-/

namespace TimeMarch

open Relation

namespace Graph

/-! ### Orders and circles -/

section Circles

variable (nodes : Roll) (deps : String → List String)

def Waits (a b : String) : Prop :=
  a ∈ nodes.keys ∧ b ∈ deps a ∧ b ∈ nodes.keys

variable {nodes deps}

lemma IsOrder.idxOf_lt_of_waits {l : List String} (h : IsOrder nodes deps l) {a b : String}
    (hab : TransGen (Waits nodes deps) a b) : l.idxOf b < l.idxOf a := by
  induction hab with
  | single hab => exact h.idxOf_lt hab.1 hab.2.1 hab.2.2
  | tail _ hbc ih =>
    have := h.idxOf_lt hbc.1 hbc.2.1 hbc.2.2
    omega

variable (nodes deps) in
open Classical in
/-- How many nodes a node waits for, directly or not. -/
noncomputable def depth (n : String) : ℕ :=
  nodes.keys.countP fun d => decide (TransGen (Waits nodes deps) n d)

lemma depth_lt {a b : String} (hab : Waits nodes deps a b)
    (hb : ¬TransGen (Waits nodes deps) b b) : depth nodes deps b < depth nodes deps a := by
  classical
  apply countP_lt_countP (a := b)
  · intro x hx
    exact decide_eq_true (.head hab (of_decide_eq_true hx))
  · exact hab.2.2
  · exact decide_eq_true (.single hab)
  · exact decide_eq_false hb

/-- **Nodes can be ordered exactly if none waits for itself.** -/
theorem exists_order_iff (rank : String → ℕ) :
    (∃ l, order nodes deps rank = .ok l) ↔ ∀ n ∈ nodes.keys, ¬TransGen (Waits nodes deps) n n := by
  constructor
  · rintro ⟨l, hl⟩ n - hcircle
    have := (isOrder_of_order hl).idxOf_lt_of_waits hcircle
    omega
  · intro hnone
    exact exists_order rank (depth nodes deps) fun n hn d hd hmem =>
      depth_lt ⟨hn, hd, hmem⟩ (hnone d hmem)

end Circles

end Graph

/-! ### References as a graph -/

def Instruction.RefersTo (i : Instruction) (r : String) : Prop :=
  r ∈ i.dependsOn ∨ ∃ condition yes no, i.action = .branch condition yes no ∧ (r ∈ yes ∨ r ∈ no)

lemma Instruction.mem_references {i : Instruction} {r : String} :
    r ∈ i.references ↔ i.RefersTo r := by
  obtain ⟨id, dependsOn, action⟩ := i
  cases action <;> simp [references, arms?, RefersTo]

namespace InstructionSet

def LeadsTo (s : InstructionSet) (id r : String) : Prop :=
  ∃ i, s.get? id = some i ∧ i.RefersTo r

end InstructionSet

namespace Program

open TimeMarch.Graph

section Circles

variable {s : InstructionSet} {roots : List String}

lemma exists_root_of_reachable {id : String} (h : Reachable s roots id) :
    ∃ r ∈ roots, ReflTransGen s.LeadsTo r id := by
  induction h with
  | root hid _ _ => exact ⟨_, hid, .refl⟩
  | step _ hi href _ _ ih =>
    obtain ⟨r, hr, hpath⟩ := ih
    exact ⟨r, hr, hpath.tail ⟨_, hi, Instruction.mem_references.1 href⟩⟩

variable (hrefs : ∀ {id i}, s.get? id = some i → ∀ r ∈ i.references, ∃ j, s.get? r = some j)
include hrefs

lemma reachable_of_leadsTo {id r : String} (h : Reachable s roots id) (hr : s.LeadsTo id r) :
    Reachable s roots r := by
  obtain ⟨i, hi, hr⟩ := hr
  have href := Instruction.mem_references.2 hr
  obtain ⟨j, hj⟩ := hrefs hi r href
  exact .step h hi href rfl hj

lemma reachable_of_path {r id : String} (hroot : Reachable s roots r)
    (hpath : ReflTransGen s.LeadsTo r id) : Reachable s roots id := by
  induction hpath with
  | refl => exact hroot
  | tail _ hstep ih => exact reachable_of_leadsTo hrefs ih hstep

end Circles

section Order

variable {p : Program}
  (hrefs : ∀ {id i}, p.instructions.get? id = some i →
    ∀ r ∈ i.references, ∃ j, p.instructions.get? r = some j)
include hrefs

lemma waits_iff {roots : List String} {a b : String} :
    Waits (reachable p.instructions roots) p.referencesOf a b ↔
      Reachable p.instructions roots a ∧ p.instructions.LeadsTo a b := by
  rw [Waits, mem_reachable_iff, mem_reachable_iff]
  constructor
  · rintro ⟨ha, href, -⟩
    obtain ⟨i, hi⟩ := ha.exists_get?
    rw [referencesOf_eq p hi] at href
    exact ⟨ha, i, hi, Instruction.mem_references.1 href⟩
  · rintro ⟨ha, hlead⟩
    obtain ⟨i, hi, hr⟩ := id hlead
    refine ⟨ha, ?_, reachable_of_leadsTo hrefs ha hlead⟩
    rw [referencesOf_eq p hi]
    exact Instruction.mem_references.2 hr

lemma transGen_waits {roots : List String} {a b : String}
    (ha : Reachable p.instructions roots a) (hab : TransGen p.instructions.LeadsTo a b) :
    TransGen (Waits (reachable p.instructions roots) p.referencesOf) a b := by
  induction hab with
  | single hab => exact .single ((waits_iff hrefs).2 ⟨ha, hab⟩)
  | tail hab hbc ih =>
    exact ih.tail ((waits_iff hrefs).2 ⟨reachable_of_path hrefs ha hab.to_reflTransGen, hbc⟩)

lemma checkOrder_iff {s : State}
    (hroots : ∀ r ∈ s.roots, ∃ i, p.instructions.get? r = some i) :
    p.checkOrder s = .ok () ↔ ∀ r ∈ s.roots, ∀ id,
      ReflTransGen p.instructions.LeadsTo r id → ¬TransGen p.instructions.LeadsTo id id := by
  rw [checkOrder_eq_ok, exists_order_iff]
  constructor
  · intro hnone r hr id hpath hcircle
    obtain ⟨i, hi⟩ := hroots r hr
    have hid : Reachable p.instructions s.roots id :=
      reachable_of_path hrefs (.root hr rfl hi) hpath
    exact hnone id ((mem_reachable_iff _ _ _).2 hid) (transGen_waits hrefs hid hcircle)
  · intro hnone id hid hcircle
    obtain ⟨r, hr, hpath⟩ := exists_root_of_reachable ((mem_reachable_iff _ _ _).1 hid)
    exact hnone r hr id hpath (TransGen.mono (fun _ _ h => ((waits_iff hrefs).1 h).2) _ _ hcircle)

end Order

/-! ### States under their names -/

lemma keys_of_register {states : List State} {roster : Roster State}
    (h : states.foldlM register .empty = .ok roster) : roster.keys = states.map State.name := by
  rw [Roster.keys, toList_of_register h, List.map_map]
  rfl

lemma values_of_register {states : List State} {roster : Roster State}
    (h : states.foldlM register .empty = .ok roster) : roster.values = states := by
  rw [Roster.values, toList_of_register h, List.map_map]
  exact List.map_id states

lemma exists_register (states : List State) (roster : Roster State)
    (h : (roster.keys ++ states.map State.name).Nodup) :
    ∃ roster', states.foldlM register roster = .ok roster' := by
  induction states generalizing roster with
  | nil => exact ⟨roster, rfl⟩
  | cons s states ih =>
    rw [List.map_cons, List.append_cons] at h
    have hfree : roster.place? s.name = none := by
      rw [Roster.place?_eq_none_iff]
      intro hmem
      exact (List.nodup_append.1 (List.nodup_append.1 h).1).2.2 _ hmem _ (by simp) rfl
    obtain ⟨roster', hroster'⟩ := ih (roster.push s.name s hfree) (by rwa [Roster.keys_push])
    refine ⟨roster', ?_⟩
    rw [List.foldlM_cons, bind_eq_ok]
    refine ⟨_, ?_, hroster'⟩
    unfold register
    rw [dif_pos hfree]

/-! ### Acceptance -/

/-- Parts that fit together: the names of the states are distinct, all that is referred to exists,
and no state can enter a circle. -/
structure WellFormed (instructions : InstructionSet) (states : List State) (initial : String) :
    Prop where
  names : (states.map State.name).Nodup
  references : ∀ i ∈ instructions.toList, ∀ r, i.RefersTo r → r ∈ instructions.ids
  transition : ∀ i ∈ instructions.toList, ∀ next, i.action = .transition next →
    next ∈ states.map State.name
  initial : initial ∈ states.map State.name
  next : ∀ s ∈ states, s.next ∈ states.map State.name
  roots : ∀ s ∈ states, ∀ r ∈ s.roots, r ∈ instructions.ids
  acyclic : ∀ s ∈ states, ∀ r ∈ s.roots, ∀ id, ReflTransGen instructions.LeadsTo r id →
    ¬TransGen instructions.LeadsTo id id

variable {instructions : InstructionSet} {states : List State} {initial : String}

/-- The checks pass exactly on parts that fit together, once the states have their places. -/
lemma check_iff_wellFormed {roster : Roster State}
    (hroster : states.foldlM register .empty = .ok roster) :
    check ⟨instructions, roster, initial⟩ = .ok () ↔ WellFormed instructions states initial := by
  have hkeys : ∀ name, roster.contains name = true ↔ name ∈ states.map State.name := by
    intro name
    rw [Roster.contains_iff, keys_of_register hroster]
  have hrefs_iff : (∀ i ∈ instructions.toList, ∀ r ∈ i.references,
      ∃ j, instructions.get? r = some j) ↔
      ∀ i ∈ instructions.toList, ∀ r, i.RefersTo r → r ∈ instructions.ids := by
    simp only [Instruction.mem_references, InstructionSet.mem_ids_iff]
  rw [check_eq_ok, values_of_register hroster]
  simp only [checkInstruction_eq_ok, checkState_eq_ok, hkeys]
  constructor
  · rintro ⟨hinstructions, hinitial, hstates⟩
    have hrefs : ∀ {id i}, instructions.get? id = some i →
        ∀ r ∈ i.references, ∃ j, instructions.get? r = some j := fun hi =>
      (hinstructions _ (mem_toList_of_get? hi).1).1
    exact {
      names := keys_of_register hroster ▸ roster.nodup_keys
      references := hrefs_iff.1 fun i hi => (hinstructions i hi).1
      transition := fun i hi => (hinstructions i hi).2
      initial := hinitial
      next := fun s hs => (hstates s hs).1
      roots := fun s hs r hr => InstructionSet.mem_ids_iff.2 ((hstates s hs).2.1 r hr)
      acyclic := fun s hs => (checkOrder_iff hrefs (hstates s hs).2.1).1 (hstates s hs).2.2 }
  · intro h
    have hrefs := hrefs_iff.2 h.references
    refine ⟨fun i hi => ⟨hrefs i hi, h.transition i hi⟩, h.initial, fun s hs => ?_⟩
    have hroots : ∀ r ∈ s.roots, ∃ i, instructions.get? r = some i := fun r hr =>
      InstructionSet.mem_ids_iff.1 (h.roots s hs r hr)
    exact ⟨h.next s hs, hroots, (checkOrder_iff
      (fun hi => hrefs _ (mem_toList_of_get? hi).1) hroots).2 (h.acyclic s hs)⟩

/-- **Acceptance**: a program is accepted exactly if its parts fit together. -/
theorem exists_create_iff_wellFormed :
    (∃ p, create instructions states initial = .ok p) ↔
      WellFormed instructions states initial := by
  constructor
  · rintro ⟨p, hp⟩
    obtain ⟨roster, hroster, hp⟩ := bind_eq_ok.1 hp
    obtain ⟨_, hcheck, -⟩ := bind_eq_ok.1 hp
    exact (check_iff_wellFormed hroster).1 hcheck
  · intro h
    obtain ⟨roster, hroster⟩ := exists_register states .empty (by simpa [Roster.keys] using h.names)
    have hcheck := (check_iff_wellFormed hroster).2 h
    exact ⟨_, bind_eq_ok.2 ⟨roster, hroster, bind_eq_ok.2 ⟨(), hcheck, rfl⟩⟩⟩

end Program

end TimeMarch
