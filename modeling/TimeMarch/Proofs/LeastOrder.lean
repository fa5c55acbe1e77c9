import Mathlib.Data.List.Lex
import TimeMarch.Proofs.Circles

/-!
# The Order Is the Least One

The ready nodes queue by rank and name, so each round lists the first of all nodes that could come
next. Take any other order, and look at the first place where it differs from ours: there it has a
node whose dependencies stand before it, which are the nodes that we have listed, too. So that node
was ready, and it is later in the queue than the one we took. Our order is therefore the first of
all orders in the order of the dictionary. There is only one such order, whatever way the nodes and
their dependencies were listed in.
-/

namespace TimeMarch.Graph

open Relation

/-! ### The queue is in order -/

instance : Std.TransCmp byRank :=
  inferInstanceAs (Std.TransCmp (compareLex (compareOn Prod.fst) (compareOn Prod.snd)))

/-- One node comes before another by its rank, or by its name where ranks are equal. -/
def Before (rank : String → ℕ) (a b : String) : Prop :=
  rank a < rank b ∨ rank a = rank b ∧ a < b

lemma Before.asymm {rank : String → ℕ} {a b : String} (h : Before rank a b) :
    ¬Before rank b a := by
  rintro (hlt | ⟨heq, hlt⟩)
  · rcases h with h | h <;> omega
  · rcases h with h | ⟨-, h⟩
    · omega
    · exact String.lt_asymm h hlt

lemma byRank_isLE_iff {rank : String → ℕ} {a b : String} :
    (byRank (rank a, a) (rank b, b)).isLE = true ↔ a = b ∨ Before rank a b := by
  have hname : compare a b = .lt ↔ a < b := compareOfLessAndEq_eq_lt
  rw [Ordering.isLE_iff_eq_lt_or_eq_eq, byRank, Ordering.then_eq_lt, Ordering.then_eq_eq,
    Nat.compare_eq_lt, Nat.compare_eq_eq, hname, Std.LawfulEqCmp.compare_eq_iff_eq, or_comm]
  exact or_congr_left ⟨fun h => h.2, fun h => ⟨congrArg rank h, h⟩⟩

def InTurn (l : List (ℕ × String)) : Prop := l.Pairwise fun a b => (byRank a b).isLE = true

lemma InTurn.queue {l : List (ℕ × String)} (h : InTurn l) (a : ℕ × String) :
    InTurn (queue a l) := by
  induction l with
  | nil => exact List.pairwise_singleton _ a
  | cons b l ih =>
    obtain ⟨hb, hl⟩ := List.pairwise_cons.1 h
    unfold Graph.queue
    split
    · rename_i hab
      refine List.pairwise_cons.2 ⟨fun c hc => ?_, h⟩
      rcases List.mem_cons.1 hc with rfl | hc
      · exact hab
      · exact Std.TransCmp.isLE_trans hab (hb c hc)
    · rename_i hab
      refine List.pairwise_cons.2 ⟨fun c hc => ?_, ih hl⟩
      rcases List.mem_cons.1 ((perm_queue a l).mem_iff.1 hc) with rfl | hc
      · rw [Bool.not_eq_true, Ordering.isLE_eq_false, Std.OrientedCmp.gt_iff_lt] at hab
        rw [hab]
        rfl
      · exact hb c hc

namespace Progress

structure Queued (rank : String → ℕ) (p : Progress) : Prop where
  inTurn : InTurn p.ready
  rank_eq : ∀ e ∈ p.ready, e.1 = rank e.2

variable {rank : String → ℕ} {p : Progress}

lemma Queued.first {r : ℕ} {node : String} {rest : List (ℕ × String)} (h : p.Queued rank)
    (hready : p.ready = (r, node) :: rest) {n : String} (hn : n ∈ p.ready.map Prod.snd) :
    node = n ∨ Before rank node n := by
  obtain ⟨⟨r', n⟩, he, rfl⟩ := List.mem_map.1 hn
  have hr : r = rank node := h.rank_eq (r, node) (by simp [hready])
  have hr' : r' = rank n := h.rank_eq (r', n) he
  rw [hready] at he
  rcases List.mem_cons.1 he with heq | he
  · exact .inl (congrArg Prod.snd heq).symm
  · have hturn := h.inTurn
    rw [hready] at hturn
    have hle := (List.pairwise_cons.1 hturn).1 (r', n) he
    rw [hr, hr'] at hle
    exact byRank_isLE_iff.1 hle

lemma Queued.queue (h : p.Queued rank) (waiting : Std.TreeMap String ℕ) (node : String)
    (c : Prop) [Decidable c] :
    Queued rank { p with
      waiting
      ready := if c then Graph.queue (rank node, node) p.ready else p.ready } := by
  by_cases hc : c
  · simp only [if_pos hc]
    refine ⟨h.inTurn.queue _, fun e he => ?_⟩
    rcases List.mem_cons.1 ((perm_queue _ _).mem_iff.1 he) with rfl | he
    · rfl
    · exact h.rank_eq e he
  · simp only [if_neg hc]
    exact ⟨h.inTurn, h.rank_eq⟩

lemma Queued.foldl {f : Progress → String → Progress}
    (hf : ∀ {q : Progress}, q.Queued rank → ∀ n, (f q n).Queued rank) (l : List String)
    (h : p.Queued rank) : (l.foldl f p).Queued rank := by
  induction l generalizing p with
  | nil => exact h
  | cons n l ih => exact ih (hf h n)

variable (rank) in
lemma Queued.start (nodes : Roll) (deps : String → List String) :
    (Progress.start nodes deps rank).Queued rank := by
  have hempty : Queued rank ⟨∅, [], []⟩ := ⟨List.Pairwise.nil, by simp⟩
  exact hempty.foldl (fun h node => h.queue _ node _) nodes.keys

lemma Queued.take (h : p.Queued rank) (after : Std.TreeMap String (List String)) {r : ℕ}
    {node : String} {rest : List (ℕ × String)} (hready : p.ready = (r, node) :: rest) :
    (p.take after rank node rest).Queued rank := by
  have hturn := h.inTurn
  rw [hready] at hturn
  have hrest : Queued rank { p with ready := rest, listed := node :: p.listed } :=
    ⟨(List.pairwise_cons.1 hturn).2, fun e he => h.rank_eq e (by simp [hready, he])⟩
  exact hrest.foldl (fun h n => h.queue _ n _) _

/-! ### Ahead of every other order -/

/-- What is listed is how the order begins, or goes ahead of it however it is continued. -/
def Ahead (rank : String → ℕ) (listed l : List String) : Prop :=
  listed <+: l ∨ ∀ later, List.Lex (Before rank) (listed ++ later) l

variable {nodes : Roll} {deps : String → List String} {l : List String}

lemma Good.exists_ready (h : p.Good nodes deps []) (hl : IsOrder nodes deps l) {rest : List String}
    (heq : l = p.listed.reverse ++ rest) {node : String} (hmem : node ∈ nodes.keys)
    (hnot : node ∉ p.listed) :
    ∃ b rest', rest = b :: rest' ∧ b ∈ p.ready.map Prod.snd := by
  have hnode : node ∈ l := hl.perm.mem_iff.2 hmem
  have hnodup : l.Nodup := hl.perm.nodup_iff.2 nodes.nodup_keys
  cases rest with
  | nil =>
    rw [heq, List.append_nil, List.mem_reverse] at hnode
    exact absurd hnode hnot
  | cons b rest' =>
    refine ⟨b, rest', rfl, ?_⟩
    have hb : b ∈ nodes.keys := hl.perm.mem_iff.1 (by simp [heq])
    have hfree : b ∉ p.listed := by
      rw [heq, List.nodup_append] at hnodup
      exact fun hlisted => hnodup.2.2 b (List.mem_reverse.2 hlisted) b (by simp) rfl
    have hdeps : ∀ d ∈ dependenciesIn nodes deps b, d ∈ p.listed := by
      intro d hd
      obtain ⟨hdep, hdmem⟩ := (mem_dependenciesIn nodes deps).1 hd
      exact List.mem_reverse.1 (hl.behind _ b rest' heq d hdep hdmem)
    exact (h.mem_ready b).2 ⟨hb, hfree, (h.waiting_eq_zero_iff hb).2 hdeps⟩

/-- A round stays ahead. -/
lemma Ahead.take (hq : p.Queued rank) (h : p.Good nodes deps []) (hl : IsOrder nodes deps l)
    {r : ℕ} {node : String} {rest : List (ℕ × String)} (hready : p.ready = (r, node) :: rest)
    (hahead : Ahead rank p.listed.reverse l) : Ahead rank (node :: p.listed).reverse l := by
  rw [List.reverse_cons]
  rcases hahead with ⟨later, heq⟩ | hless
  · obtain ⟨hmem, hnot, -⟩ := (h.mem_ready node).1 (by simp [hready])
    obtain ⟨b, later', rfl, hb⟩ := h.exists_ready hl heq.symm hmem hnot
    rcases hq.first hready hb with rfl | hbefore
    · left
      exact ⟨later', by rw [List.append_assoc, List.singleton_append, heq]⟩
    · right
      intro more
      rw [List.append_assoc, List.singleton_append, ← heq]
      exact .append_left _ (.rel hbefore) _
  · right
    intro more
    rw [List.append_assoc]
    exact hless _

/-- **Every round stays ahead of every order.** -/
theorem Ahead.run (rounds : ℕ) (hq : p.Queued rank) (h : p.Good nodes deps [])
    (hl : IsOrder nodes deps l) (hahead : Ahead rank p.listed.reverse l) :
    Ahead rank (p.run (dependents nodes deps) rank rounds).listed.reverse l := by
  induction rounds generalizing p with
  | zero => exact hahead
  | succ rounds ih =>
    unfold Progress.run
    split
    · exact hahead
    · rename_i r node rest hready
      refine ih (hq.take _ hready) (h.take rank hready) ?_
      rw [Progress.take_listed]
      exact hahead.take hq h hl hready

end Progress

variable {nodes : Roll} {deps : String → List String} {rank : String → ℕ} {l l' : List String}

/-- **The order that comes out is the least one.** -/
theorem eq_or_lex_of_order (h : order nodes deps rank = .ok l) (hl' : IsOrder nodes deps l') :
    l' = l ∨ List.Lex (Before rank) l l' := by
  have hbegin : Progress.Ahead rank (Progress.start nodes deps rank).listed.reverse l' := by
    rw [(Progress.Counted.start rank).listed]
    exact .inl List.nil_prefix
  have hahead := hbegin.run nodes.size (.start rank nodes deps) (.start rank) hl'
  rw [(order_eq_ok h).2] at hahead
  rcases hahead with hfront | hless
  · left
    have hlength : l.length = l'.length :=
      ((isOrder_of_order h).perm.trans hl'.perm.symm).length_eq
    exact (hfront.eq_of_length hlength).symm
  · right
    simpa using hless []

/-! ### What the order depends on -/

section

variable {nodes' : Roll} {deps' : String → List String} {rank' : String → ℕ}

lemma IsOrder.congr (hnodes : ∀ n, n ∈ nodes'.keys ↔ n ∈ nodes.keys)
    (hedges : ∀ a b, Waits nodes' deps' a b ↔ Waits nodes deps a b) (h : IsOrder nodes' deps' l) :
    IsOrder nodes deps l := by
  have hperm : nodes'.keys.Perm nodes.keys :=
    (List.perm_ext_iff_of_nodup nodes'.nodup_keys nodes.nodup_keys).2 hnodes
  refine ⟨h.perm.trans hperm, fun pre n post hl d hd hmem => ?_⟩
  have hn : n ∈ nodes.keys := (h.perm.trans hperm).mem_iff.1 (by simp [hl])
  have hwaits : Waits nodes' deps' n d := (hedges n d).2 ⟨hn, hd, hmem⟩
  exact h.behind pre n post hl d hwaits.2.1 hwaits.2.2

lemma lex_congr (hturns : ∀ a ∈ l, ∀ b ∈ l', Before rank' a b → Before rank a b)
    (h : List.Lex (Before rank') l l') : List.Lex (Before rank) l l' := by
  induction h with
  | nil => exact .nil
  | cons h ih =>
    refine .cons (ih fun a ha b hb => hturns a ?_ b ?_)
    · exact List.mem_cons_of_mem _ ha
    · exact List.mem_cons_of_mem _ hb
  | rel h => exact .rel (hturns _ List.mem_cons_self _ List.mem_cons_self h)

lemma order_eq_of_turns (hnodes : ∀ n, n ∈ nodes'.keys ↔ n ∈ nodes.keys)
    (hedges : ∀ a b, Waits nodes' deps' a b ↔ Waits nodes deps a b)
    (hturns : ∀ a ∈ nodes.keys, ∀ b ∈ nodes.keys, Before rank' a b → Before rank a b)
    (h : order nodes deps rank = .ok l) (h' : order nodes' deps' rank' = .ok l') : l' = l := by
  have hl := isOrder_of_order h
  have hl' := (isOrder_of_order h').congr hnodes hedges
  rcases eq_or_lex_of_order h hl' with heq | hless
  · exact heq
  have hback : IsOrder nodes' deps' l :=
    hl.congr (fun n => (hnodes n).symm) fun a b => (hedges a b).symm
  rcases eq_or_lex_of_order h' hback with heq | hless'
  · exact heq.symm
  -- each of the two would be before the other
  have hless' := lex_congr (fun a ha b hb => hturns a (hl'.perm.mem_iff.1 ha) b
    (hl.perm.mem_iff.1 hb)) hless'
  exact absurd hless' (List.lex_asymm (fun h => h.asymm) hless)

lemma order_congr (hnodes : ∀ n, n ∈ nodes'.keys ↔ n ∈ nodes.keys)
    (hedges : ∀ a b, Waits nodes' deps' a b ↔ Waits nodes deps a b)
    (hranks : ∀ n ∈ nodes.keys, rank' n = rank n) (h : order nodes deps rank = .ok l)
    (h' : order nodes' deps' rank' = .ok l') : l' = l := by
  refine order_eq_of_turns hnodes hedges (fun a ha b hb hab => ?_) h h'
  rwa [Before, hranks a ha, hranks b hb] at hab

/-- What can be ordered is ordered in the same way under all nodes, dependencies and ranks that
amount to the same. -/
lemma order_ok_of_turns (hnodes : ∀ n, n ∈ nodes'.keys ↔ n ∈ nodes.keys)
    (hedges : ∀ a b, Waits nodes' deps' a b ↔ Waits nodes deps a b)
    (hturns : ∀ a ∈ nodes.keys, ∀ b ∈ nodes.keys, Before rank' a b → Before rank a b)
    (h : order nodes deps rank = .ok l) : order nodes' deps' rank' = .ok l := by
  have hacyclic := (exists_order_iff rank).1 ⟨l, h⟩
  have hwaits : Waits nodes' deps' = Waits nodes deps :=
    funext fun a => funext fun b => propext (hedges a b)
  obtain ⟨l', hl'⟩ := (exists_order_iff rank').2 fun n hn => hwaits ▸ hacyclic n ((hnodes n).1 hn)
  rw [hl', order_eq_of_turns hnodes hedges hturns h hl']

end

/-- **Ties are broken in one way only.** Of nodes that do not wait for themselves the order is
found, and it is the first of all their orders, where one compares from the front by rank and name.
It is the same for all nodes, dependencies and ranks that amount to the same, however they are
listed. -/
theorem order_eq_least (nodes : Roll) (deps : String → List String) (rank : String → ℕ)
    (hacyclic : ∀ n, ¬TransGen (Waits nodes deps) n n) :
    ∃ l, order nodes deps rank = .ok l ∧ IsOrder nodes deps l ∧
      (∀ l', IsOrder nodes deps l' → l' = l ∨ List.Lex (Before rank) l l') ∧
      ∀ (nodes' : Roll) (deps' : String → List String) (rank' : String → ℕ),
        (∀ n, n ∈ nodes'.keys ↔ n ∈ nodes.keys) →
        (∀ a b, Waits nodes' deps' a b ↔ Waits nodes deps a b) →
        (∀ n ∈ nodes.keys, rank' n = rank n) → order nodes' deps' rank' = .ok l := by
  obtain ⟨l, hl⟩ := (exists_order_iff rank).2 fun n _ => hacyclic n
  refine ⟨l, hl, isOrder_of_order hl, fun l' => eq_or_lex_of_order hl, ?_⟩
  intro nodes' deps' rank' hnodes hedges hranks
  have hwaits : Waits nodes' deps' = Waits nodes deps :=
    funext fun a => funext fun b => propext (hedges a b)
  obtain ⟨l', hl'⟩ := (exists_order_iff rank').2 fun n _ => hwaits ▸ hacyclic n
  rw [hl', order_congr hnodes hedges hranks hl hl']

/-- Four nodes, of which one depends on another, and one has a higher rank than the rest. The nodes
are listed in two ways and so is the dependency, once with a name that is no node. -/
theorem order_eq_least_ties :
    let deps : List String → String → List String := fun l n => if n = "v" then l else []
    let rank : String → ℕ := fun n => if n = "u" then 1 else 0
    (∀ n, ¬TransGen (Waits (.ofList ["x", "u", "w", "v"]) (deps ["x"])) n n) ∧
    order (.ofList ["x", "u", "w", "v"]) (deps ["x"]) rank = .ok ["w", "x", "v", "u"] ∧
    (∀ l, IsOrder (.ofList ["x", "u", "w", "v"]) (deps ["x"]) l →
      l = ["w", "x", "v", "u"] ∨ List.Lex (Before rank) ["w", "x", "v", "u"] l) ∧
    order (.ofList ["v", "w", "x", "u"]) (deps ["x", "none", "x"]) rank =
      .ok ["w", "x", "v", "u"] := by
  intro deps rank
  have hok : order (.ofList ["x", "u", "w", "v"]) (deps ["x"]) rank =
      .ok ["w", "x", "v", "u"] := by decide +kernel
  have hacyclic : ∀ n, ¬TransGen (Waits (.ofList ["x", "u", "w", "v"]) (deps ["x"])) n n :=
    fun n hn => (exists_order_iff rank).1 ⟨_, hok⟩ n (Stuck.mem ⟨n, .refl, hn⟩) hn
  obtain ⟨l, hl, -, hleast, hsame⟩ := order_eq_least _ _ rank hacyclic
  obtain rfl : l = ["w", "x", "v", "u"] := Except.ok.inj (hl.symm.trans hok)
  have hkeys : (Roll.ofList ["x", "u", "w", "v"]).keys = ["x", "u", "w", "v"] := by decide +kernel
  have hkeys' : (Roll.ofList ["v", "w", "x", "u"]).keys = ["v", "w", "x", "u"] := by decide +kernel
  have hnodes : ∀ n, n ∈ (Roll.ofList ["v", "w", "x", "u"]).keys ↔
      n ∈ (Roll.ofList ["x", "u", "w", "v"]).keys := by
    rw [hkeys, hkeys']
    have hperm : ["v", "w", "x", "u"].Perm ["x", "u", "w", "v"] := by decide
    exact fun n => hperm.mem_iff
  refine ⟨hacyclic, hok, hleast, hsame _ _ _ hnodes (fun a b => ?_) fun _ _ => rfl⟩
  rw [Waits, Waits, hnodes, hnodes]
  refine and_congr_right fun _ => and_congr_left fun hb => ?_
  -- what is no node does not count
  have hne : b ≠ "none" := by
    rintro rfl
    rw [hkeys] at hb
    revert hb
    decide
  by_cases ha : a = "v"
  · simp [deps, ha, hne]
  · simp [deps, ha]

end TimeMarch.Graph
