import TimeMarch.Proofs.WellFormedness

/-!
# Nodes That Wait in Vain

When no node is ready any more, each node that is left waits for another one that is left. There are
finitely many, so it waits in the end for a node that waits for itself. A node that was listed does
not: what it waits for was listed before it. So the nodes that are left are those on a circle and
those that wait for one of them.

The counts of the nodes are counts of dependencies that are not listed. One of them is taken down
only when such a dependency gets listed, and is not zero before.
-/

namespace TimeMarch.Graph

open Relation

/-! ### Counting down with a check -/

namespace Progress

def release? (rank : String → ℕ) (p : Progress) (node : String) : Option Progress :=
  if p.waiting.getD node 0 = 0 then none else some (p.release rank node)

def take? (after : Std.TreeMap String (List String)) (rank : String → ℕ) (p : Progress)
    (node : String) (rest : List (ℕ × String)) : Option Progress :=
  (after.getD node []).foldlM (release? rank) { p with ready := rest, listed := node :: p.listed }

/-- The rounds of `run`, as long as no count would go below zero. -/
def run? (after : Std.TreeMap String (List String)) (rank : String → ℕ) :
    (rounds : ℕ) → Progress → Option Progress
  | 0, p => some p
  | rounds + 1, p =>
    match p.ready with
    | [] => some p
    | (_, node) :: rest => (p.take? after rank node rest).bind (run? after rank rounds)

variable {nodes : Roll} {deps : String → List String} (rank : String → ℕ)

lemma Good.release?_eq {n : String} {todo : List String} {p : Progress}
    (h : p.Good nodes deps (n :: todo)) (hn : n ∈ nodes.keys) :
    p.release? rank n = some (p.release rank n) := by
  rw [release?, if_neg (h.waiting_ne_zero hn)]

lemma Good.foldlM_release? {todo : List String} (hnodup : todo.Nodup) {p : Progress}
    (h : p.Good nodes deps todo) (htodo : ∀ n ∈ todo, n ∈ nodes.keys ∧ n ∉ p.listed) :
    todo.foldlM (release? rank) p = some (todo.foldl (Progress.release rank) p) := by
  induction todo generalizing p with
  | nil => rfl
  | cons n todo ih =>
    rw [List.nodup_cons] at hnodup
    obtain ⟨hn, hlisted⟩ := htodo n (by simp)
    rw [List.foldlM_cons, h.release?_eq rank hn, List.foldl_cons]
    exact ih hnodup.2 (h.release rank hn hnodup.1 hlisted)
      fun m hm => htodo m (List.mem_cons_of_mem _ hm)

/-- **No count goes below zero.** -/
theorem Good.run?_eq (rounds : ℕ) {p : Progress} (h : p.Good nodes deps []) :
    p.run? (dependents nodes deps) rank rounds =
      some (p.run (dependents nodes deps) rank rounds) := by
  induction rounds generalizing p with
  | zero => rfl
  | succ rounds ih =>
    cases hready : p.ready with
    | nil => simp only [run?, Progress.run, hready]
    | cons e rest =>
      obtain ⟨r, node⟩ := e
      obtain ⟨hlist, htodo⟩ := h.list hready
      have htake : p.take? (dependents nodes deps) rank node rest =
          some (p.take (dependents nodes deps) rank node rest) :=
        hlist.foldlM_release? rank (nodup_dependents nodes deps node) htodo
      simp only [run?, Progress.run, hready, htake, Option.bind_some]
      exact ih (h.take rank hready)

end Progress

/-! ### The nodes that are left -/

section

variable (nodes : Roll) (deps : String → List String)

/-- A node is on a circle, or waits for a node that is. -/
def Stuck (n : String) : Prop :=
  ∃ c, ReflTransGen (Waits nodes deps) n c ∧ TransGen (Waits nodes deps) c c

variable {nodes deps}

lemma Stuck.of_waits {a b : String} (hab : Waits nodes deps a b) (h : Stuck nodes deps b) :
    Stuck nodes deps a := by
  obtain ⟨c, hpath, hcircle⟩ := h
  exact ⟨c, .head hab hpath, hcircle⟩

lemma Stuck.mem {n : String} (h : Stuck nodes deps n) : n ∈ nodes.keys := by
  obtain ⟨c, hpath, hcircle⟩ := h
  have hall : TransGen (Waits nodes deps) n c := hcircle.trans_right hpath
  obtain ⟨d, hd, -⟩ := TransGen.head'_iff.1 hall
  exact hd.1

namespace Progress

variable {p : Progress}

lemma Good.idxOf_lt (h : p.Good nodes deps []) {a b : String} (ha : a ∈ p.listed)
    (hab : Waits nodes deps a b) : b ∈ p.listed ∧ p.listed.idxOf a < p.listed.idxOf b := by
  have hb : b ∈ dependenciesIn nodes deps a := (mem_dependenciesIn nodes deps).2 hab.2
  refine ⟨h.listed_closed ha hb, ?_⟩
  obtain ⟨pre, post, heq⟩ := List.append_of_mem ha
  have hpost : b ∈ post := h.ordered a post ⟨pre, heq.symm⟩ b hb
  have hnodup := h.nodup_listed
  rw [heq, List.nodup_append, List.nodup_cons] at hnodup
  obtain ⟨-, ⟨hself, -⟩, hapart⟩ := hnodup
  have hapre : a ∉ pre := fun hmem => hapart a hmem a (by simp) rfl
  have hbpre : b ∉ pre := fun hmem => hapart b hmem b (by simp [hpost]) rfl
  have hne : a ≠ b := by
    rintro rfl
    exact hself hpost
  rw [heq, List.idxOf_append_of_notMem hapre, List.idxOf_append_of_notMem hbpre,
    List.idxOf_cons_self, List.idxOf_cons_ne _ hne]
  omega

lemma Good.idxOf_lt_of_transGen (h : p.Good nodes deps []) {a b : String} (ha : a ∈ p.listed)
    (hab : TransGen (Waits nodes deps) a b) :
    b ∈ p.listed ∧ p.listed.idxOf a < p.listed.idxOf b := by
  induction hab with
  | single hab => exact h.idxOf_lt ha hab
  | tail _ hbc ih =>
    obtain ⟨hc, hlt⟩ := h.idxOf_lt ih.1 hbc
    exact ⟨hc, ih.2.trans hlt⟩

lemma Good.notMem_listed_of_stuck (h : p.Good nodes deps []) {n : String}
    (hn : Stuck nodes deps n) : n ∉ p.listed := by
  intro hlisted
  obtain ⟨c, hpath, hcircle⟩ := hn
  have hc : c ∈ p.listed := (h.idxOf_lt_of_transGen hlisted (hcircle.trans_right hpath)).1
  exact absurd (h.idxOf_lt_of_transGen hc hcircle).2 (Nat.lt_irrefl _)

lemma Good.waiting_pos_iff (h : p.Good nodes deps []) (hready : p.ready = []) {n : String}
    (hn : n ∈ nodes.keys) : 0 < p.waiting.getD n 0 ↔ n ∉ p.listed := by
  constructor
  · intro hpos hlisted
    have hzero : p.waiting.getD n 0 = 0 :=
      (h.waiting_eq_zero_iff hn).2 fun d hd => h.listed_closed hlisted hd
    omega
  · intro hnot
    by_contra hzero
    have hmem := (h.mem_ready n).2 ⟨hn, hnot, by omega⟩
    rw [hready] at hmem
    cases hmem

lemma Good.exists_waits (h : p.Good nodes deps []) (hready : p.ready = []) {n : String}
    (hn : n ∈ nodes.keys) (hnot : n ∉ p.listed) : ∃ d, Waits nodes deps n d ∧ d ∉ p.listed := by
  have hpos := (h.waiting_pos_iff hready hn).2 hnot
  rw [Nat.pos_iff_ne_zero, Ne, h.waiting_eq_zero_iff hn] at hpos
  push Not at hpos
  obtain ⟨d, hd, hleft⟩ := hpos
  obtain ⟨hdep, hmem⟩ := (mem_dependenciesIn nodes deps).1 hd
  exact ⟨d, ⟨hn, hdep, hmem⟩, hleft⟩

/-- **What is left is what waits in vain.** -/
theorem Good.notMem_listed_iff (h : p.Good nodes deps []) (hready : p.ready = []) {n : String}
    (hn : n ∈ nodes.keys) : n ∉ p.listed ↔ Stuck nodes deps n := by
  refine ⟨fun hnot => ?_, h.notMem_listed_of_stuck⟩
  -- one goes on to a node that is left, and waits for fewer nodes unless one is on a circle
  induction hdepth : depth nodes deps n using Nat.strongRecOn generalizing n with
  | _ k ih =>
    obtain ⟨d, hd, hleft⟩ := h.exists_waits hready hn hnot
    by_cases hcircle : TransGen (Waits nodes deps) d d
    · exact ⟨d, .single hd, hcircle⟩
    · have hlt : depth nodes deps d < k := hdepth ▸ depth_lt hd hcircle
      exact .of_waits hd (ih _ hlt hd.2.2 hleft rfl)

end Progress

/-! ### The answer -/

lemma mem_of_order_error {rank : String → ℕ} {involved : List String}
    (h : order nodes deps rank = .error involved) :
    involved.Sublist nodes.keys ∧ ∀ n, n ∈ involved ↔ Stuck nodes deps n := by
  set p := (Progress.start nodes deps rank).run (dependents nodes deps) rank nodes.size
  have hgood : p.Good nodes deps [] := (Progress.Good.start rank).run rank nodes.size
  have hready : p.ready = [] := ready_run_eq_nil rank
  rw [order] at h
  split at h
  · cases h
  · cases h
    refine ⟨List.filter_sublist, fun n => ?_⟩
    rw [List.mem_filter, decide_eq_true_iff]
    constructor
    · rintro ⟨hn, hpos⟩
      exact (hgood.notMem_listed_iff hready hn).1 ((hgood.waiting_pos_iff hready hn).1 hpos)
    · intro hn
      exact ⟨hn.mem, (hgood.waiting_pos_iff hready hn.mem).2
        ((hgood.notMem_listed_iff hready hn.mem).2 hn)⟩

end

/-- **The order of nodes, or those that have none.** Nodes are put in order exactly if none waits
for itself, directly or not. An order has every node once, behind all nodes that it depends on. If
there is none, one is told the nodes that are on a circle or wait for one, in the order of the
nodes. No count of dependencies goes below zero on the way. -/
theorem order_ok_iff_and_error_iff (nodes : Roll) (deps : String → List String)
    (rank : String → ℕ) :
    ((∃ l, order nodes deps rank = .ok l) ↔ ∀ n, ¬TransGen (Waits nodes deps) n n) ∧
    (∀ l, order nodes deps rank = .ok l → IsOrder nodes deps l) ∧
    (∀ involved, order nodes deps rank = .error involved →
      involved.Sublist nodes.keys ∧ ∀ n, n ∈ involved ↔ Stuck nodes deps n) ∧
    (Progress.start nodes deps rank).run? (dependents nodes deps) rank nodes.size =
      some ((Progress.start nodes deps rank).run (dependents nodes deps) rank nodes.size) := by
  refine ⟨?_, fun l => isOrder_of_order, fun involved => mem_of_order_error,
    (Progress.Good.start rank).run?_eq rank nodes.size⟩
  rw [exists_order_iff]
  refine ⟨fun hnone n hcircle => ?_, fun hnone n _ => hnone n⟩
  exact hnone n (Stuck.mem ⟨n, .refl, hcircle⟩) hcircle

/-- A circle of two nodes with others behind it, a node that depends on itself, and names that are
repeated or no nodes. -/
def circleDependencies : String → List String
  | "a" => ["b", "b", "outside"]
  | "b" => ["a"]
  | "c" => ["a", "e"]
  | "d" => ["c"]
  | "e" => ["outside"]
  | "f" => ["f"]
  | _ => []

theorem order_ok_iff_and_error_iff_circle :
    order (.ofList ["d", "c", "a", "b", "f", "e"]) circleDependencies (fun _ => 0) =
      .error ["d", "c", "a", "b", "f"] ∧
    (∀ n, n ∈ ["d", "c", "a", "b", "f"] ↔
      Stuck (.ofList ["d", "c", "a", "b", "f", "e"]) circleDependencies n) ∧
    order (.ofList ["d", "c", "a", "e"]) circleDependencies (fun _ => 0) =
      .ok ["a", "e", "c", "d"] ∧
    IsOrder (.ofList ["d", "c", "a", "e"]) circleDependencies ["a", "e", "c", "d"] := by
  have herror : order (.ofList ["d", "c", "a", "b", "f", "e"]) circleDependencies (fun _ => 0) =
      .error ["d", "c", "a", "b", "f"] := by decide +kernel
  have hok : order (.ofList ["d", "c", "a", "e"]) circleDependencies (fun _ => 0) =
      .ok ["a", "e", "c", "d"] := by decide +kernel
  exact ⟨herror, ((order_ok_iff_and_error_iff _ _ _).2.2.1 _ herror).2, hok,
    (order_ok_iff_and_error_iff _ _ _).2.1 _ hok⟩

end TimeMarch.Graph
