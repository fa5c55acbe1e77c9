import Mathlib.Data.List.Chain
import Mathlib.Data.List.Perm.Subperm
import TimeMarch.Graph.Order
import TimeMarch.Proofs.Rosters

/-!
# The Dependency Order Is One

Listing ready nodes round by round, one keeps for every node the number of its dependencies that are
not listed yet. When no node is ready any more, every node that is left waits for a node that is
left. So all nodes get listed if dependencies do not run in a circle, and then each stands behind
those it depends on.
-/

namespace TimeMarch.Graph

/-! ### The queue of ready nodes -/

lemma perm_queue (a : ℕ × String) (l : List (ℕ × String)) : (queue a l).Perm (a :: l) := by
  induction l with
  | nil => simp [queue]
  | cons b l ih =>
    unfold queue
    split
    · exact List.Perm.refl _
    · exact (List.Perm.cons b ih).trans (List.Perm.swap a b l)

/-! ### Dependencies among the nodes -/

lemma nodup_eraseDups (l : List String) : l.eraseDups.Nodup := by
  induction h : l.length using Nat.strongRecOn generalizing l with
  | _ n ih =>
    cases l with
    | nil => simp
    | cons a l =>
      rw [List.eraseDups_cons, List.nodup_cons]
      refine ⟨by simp [List.mem_eraseDups], ih _ ?_ _ rfl⟩
      have := List.length_filter_le (fun b => !b == a) l
      simp only [List.length_cons] at h
      omega

section

variable (nodes : Roll) (deps : String → List String)

lemma mem_dependenciesIn {node d : String} :
    d ∈ dependenciesIn nodes deps node ↔ d ∈ deps node ∧ d ∈ nodes.keys := by
  simp [dependenciesIn, Roster.contains_iff]

lemma nodup_dependenciesIn (node : String) : (dependenciesIn nodes deps node).Nodup :=
  nodup_eraseDups _

def unlistedCount (listed : List String) (node : String) : ℕ :=
  (dependenciesIn nodes deps node).countP fun d => d ∉ listed

lemma unlistedCount_eq_zero_iff {listed : List String} {node : String} :
    unlistedCount nodes deps listed node = 0 ↔
      ∀ d ∈ dependenciesIn nodes deps node, d ∈ listed := by
  simp [unlistedCount, List.countP_eq_zero]

lemma unlistedCount_nil (node : String) :
    unlistedCount nodes deps [] node = (dependenciesIn nodes deps node).length := by
  simp [unlistedCount]

lemma countP_not_mem_cons {l listed : List String} {node : String} (hl : l.Nodup)
    (hnode : node ∉ listed) :
    l.countP (fun d => d ∉ listed) =
      l.countP (fun d => d ∉ node :: listed) + if node ∈ l then 1 else 0 := by
  induction l with
  | nil => simp
  | cons a l ih =>
    rw [List.nodup_cons] at hl
    rw [List.countP_cons, List.countP_cons, ih hl.2]
    by_cases ha : a = node
    · subst ha
      simp [hl.1, hnode]
    · have hna : node ≠ a := Ne.symm ha
      simp only [List.mem_cons, ha, hna, false_or]
      omega

lemma unlistedCount_cons {listed : List String} {node : String} (hnode : node ∉ listed)
    (n : String) :
    unlistedCount nodes deps listed n = unlistedCount nodes deps (node :: listed) n +
      if node ∈ dependenciesIn nodes deps n then 1 else 0 :=
  countP_not_mem_cons (nodup_dependenciesIn nodes deps n) hnode

/-! ### Dependents -/

lemma getD_foldl_insert_cons (node : String) (ds : List String) (hds : ds.Nodup)
    (m : Std.TreeMap String (List String)) (d : String) :
    (ds.foldl (fun m d => m.insert d (node :: m.getD d [])) m).getD d [] =
      if d ∈ ds then node :: m.getD d [] else m.getD d [] := by
  induction ds generalizing m with
  | nil => simp
  | cons e ds ih =>
    rw [List.nodup_cons] at hds
    rw [List.foldl_cons, ih hds.2, Std.TreeMap.getD_insert]
    by_cases he : e = d
    · subst he
      simp [hds.1]
    · simp [he, Ne.symm he]

lemma getD_foldl_dependents (l : List String) (m : Std.TreeMap String (List String)) (d : String) :
    (l.foldl (fun m node => (dependenciesIn nodes deps node).foldl
      (fun m d => m.insert d (node :: m.getD d [])) m) m).getD d [] =
      (l.filter fun n => d ∈ dependenciesIn nodes deps n).reverse ++ m.getD d [] := by
  induction l generalizing m with
  | nil => simp
  | cons n l ih =>
    rw [List.foldl_cons, ih,
      getD_foldl_insert_cons n _ (nodup_dependenciesIn nodes deps n) m d]
    by_cases hd : d ∈ dependenciesIn nodes deps n <;> simp [hd]

lemma getD_dependents (d : String) :
    (dependents nodes deps).getD d [] =
      (nodes.keys.filter fun n => d ∈ dependenciesIn nodes deps n).reverse := by
  rw [dependents, getD_foldl_dependents]
  simp

lemma mem_dependents {d n : String} :
    n ∈ (dependents nodes deps).getD d [] ↔
      n ∈ nodes.keys ∧ d ∈ dependenciesIn nodes deps n := by
  rw [getD_dependents]
  simp

lemma nodup_dependents (d : String) : ((dependents nodes deps).getD d []).Nodup := by
  rw [getD_dependents, List.nodup_reverse]
  exact nodes.nodup_keys.filter _

/-! ### What every round keeps -/

/-- The state between rounds, or while the nodes in `todo` are still to be told that one of their
dependencies is listed. -/
structure Progress.Good (todo : List String) (p : Progress) : Prop where
  waiting : ∀ n ∈ nodes.keys, p.waiting.getD n 0 =
    unlistedCount nodes deps p.listed n + if n ∈ todo then 1 else 0
  mem_ready : ∀ n, n ∈ p.ready.map Prod.snd ↔
    n ∈ nodes.keys ∧ n ∉ p.listed ∧ p.waiting.getD n 0 = 0
  nodup_ready : (p.ready.map Prod.snd).Nodup
  listed_sub : ∀ n ∈ p.listed, n ∈ nodes.keys
  nodup_listed : p.listed.Nodup
  ordered : ∀ n rest, n :: rest <:+ p.listed → ∀ d ∈ dependenciesIn nodes deps n, d ∈ rest

variable {nodes deps}

lemma Progress.Good.listed_closed {todo : List String} {p : Progress} (h : p.Good nodes deps todo)
    {n d : String} (hn : n ∈ p.listed) (hd : d ∈ dependenciesIn nodes deps n) : d ∈ p.listed := by
  obtain ⟨l, r, hl⟩ := List.append_of_mem hn
  have hsuffix : n :: r <:+ p.listed := ⟨l, hl.symm⟩
  have := h.ordered n r hsuffix d hd
  exact hsuffix.subset (List.mem_cons_of_mem _ this)

lemma Progress.Good.waiting_ne_zero {n : String} {todo : List String} {p : Progress}
    (h : p.Good nodes deps (n :: todo)) (hn : n ∈ nodes.keys) : p.waiting.getD n 0 ≠ 0 := by
  rw [h.waiting n hn]
  simp

lemma Progress.Good.waiting_eq_zero_iff {n : String} {p : Progress} (h : p.Good nodes deps [])
    (hn : n ∈ nodes.keys) :
    p.waiting.getD n 0 = 0 ↔ ∀ d ∈ dependenciesIn nodes deps n, d ∈ p.listed := by
  rw [h.waiting n hn, ← unlistedCount_eq_zero_iff]
  simp

lemma Progress.Good.release {n : String} {todo : List String} {p : Progress}
    (rank : String → ℕ) (h : p.Good nodes deps (n :: todo)) (hn : n ∈ nodes.keys)
    (htodo : n ∉ todo) (hlisted : n ∉ p.listed) : (p.release rank n).Good nodes deps todo := by
  have hcount : p.waiting.getD n 0 - 1 = unlistedCount nodes deps p.listed n := by
    rw [h.waiting n hn]
    simp
  have hnot : n ∉ p.ready.map Prod.snd := fun hmem =>
    h.waiting_ne_zero hn ((h.mem_ready n).1 hmem).2.2
  have hget : ∀ m, (p.release rank n).waiting.getD m 0 =
      if n = m then unlistedCount nodes deps p.listed n else p.waiting.getD m 0 := by
    intro m
    simp only [Progress.release, Std.TreeMap.getD_insert, hcount,
      Std.LawfulEqCmp.compare_eq_iff_eq]
  refine ⟨?_, ?_, ?_, h.listed_sub, h.nodup_listed, h.ordered⟩
  · intro m hm
    rw [hget]
    by_cases hnm : n = m
    · subst hnm
      simp [Progress.release, htodo]
    · have := h.waiting m hm
      simp only [hnm, if_false, this, List.mem_cons, Ne.symm hnm, false_or]
      rfl
  · intro m
    rw [hget]
    simp only [Progress.release, hcount]
    by_cases hzero : unlistedCount nodes deps p.listed n = 0
    · -- the node becomes ready
      rw [if_pos hzero, ((perm_queue _ _).map Prod.snd).mem_iff, List.map_cons, List.mem_cons,
        h.mem_ready]
      by_cases hnm : n = m
      · subst hnm
        simp [hn, hlisted, hzero]
      · simp [hnm, Ne.symm hnm]
    · rw [if_neg hzero, h.mem_ready]
      by_cases hnm : n = m
      · subst hnm
        simp [hzero, h.waiting_ne_zero hn]
      · simp [hnm]
  · simp only [Progress.release, hcount]
    split
    · rw [((perm_queue _ _).map Prod.snd).nodup_iff, List.map_cons, List.nodup_cons]
      exact ⟨hnot, h.nodup_ready⟩
    · exact h.nodup_ready

lemma Progress.Good.foldl_release (rank : String → ℕ) (todo : List String) (hnodup : todo.Nodup)
    (p : Progress) (h : p.Good nodes deps todo)
    (htodo : ∀ n ∈ todo, n ∈ nodes.keys ∧ n ∉ p.listed) :
    (todo.foldl (Progress.release rank) p).Good nodes deps [] := by
  induction todo generalizing p with
  | nil => exact h
  | cons n todo ih =>
    rw [List.nodup_cons] at hnodup
    obtain ⟨hn, hlisted⟩ := htodo n (by simp)
    exact ih hnodup.2 _ (h.release rank hn hnodup.1 hlisted)
      fun m hm => htodo m (List.mem_cons_of_mem _ hm)

lemma Progress.Good.list {p : Progress} {r : ℕ} {node : String} {rest : List (ℕ × String)}
    (h : p.Good nodes deps []) (hready : p.ready = (r, node) :: rest) :
    { p with ready := rest, listed := node :: p.listed }.Good nodes deps
      ((dependents nodes deps).getD node []) ∧
    ∀ n ∈ (dependents nodes deps).getD node [], n ∈ nodes.keys ∧ n ∉ node :: p.listed := by
  have hnode : node ∈ nodes.keys ∧ node ∉ p.listed ∧ p.waiting.getD node 0 = 0 :=
    (h.mem_ready node).1 (by simp [hready])
  obtain ⟨hmem, hnot, hzero⟩ := hnode
  have hdeps := (h.waiting_eq_zero_iff hmem).1 hzero
  have hrest : (rest.map Prod.snd).Nodup ∧ node ∉ rest.map Prod.snd := by
    have := h.nodup_ready
    rw [hready, List.map_cons, List.nodup_cons] at this
    exact ⟨this.2, this.1⟩
  constructor
  · refine ⟨?_, ?_, hrest.1, ?_, ?_, ?_⟩
    · intro n hn
      have hcount := h.waiting n hn
      simp only [List.not_mem_nil, if_false, Nat.add_zero] at hcount
      simp only [hcount, mem_dependents, hn, true_and]
      exact unlistedCount_cons nodes deps hnot n
    · intro n
      have := h.mem_ready n
      rw [hready, List.map_cons, List.mem_cons] at this
      simp only [List.mem_cons, not_or]
      by_cases hn : n = node
      · subst hn
        simp [hrest.2]
      · simp only [hn, false_or] at this
        simp [this, hn]
    · intro n hn
      rcases List.mem_cons.1 hn with rfl | hn
      · exact hmem
      · exact h.listed_sub n hn
    · exact List.nodup_cons.2 ⟨hnot, h.nodup_listed⟩
    · intro n l hsuffix d hd
      rcases List.suffix_cons_iff.1 hsuffix with heq | hsuffix
      · obtain ⟨rfl, rfl⟩ := List.cons.inj heq
        exact hdeps d hd
      · exact h.ordered n l hsuffix d hd
  · intro n hn
    obtain ⟨hn, hd⟩ := (mem_dependents nodes deps).1 hn
    refine ⟨hn, ?_⟩
    -- a listed node would have its dependency listed before this round
    simp only [List.mem_cons, not_or]
    constructor
    · rintro rfl
      exact hnot (hdeps n hd)
    · exact fun hlisted => hnot (h.listed_closed hlisted hd)

/-- A round keeps the invariant. -/
lemma Progress.Good.take (rank : String → ℕ) {p : Progress} {r : ℕ} {node : String}
    {rest : List (ℕ × String)} (h : p.Good nodes deps []) (hready : p.ready = (r, node) :: rest) :
    (p.take (dependents nodes deps) rank node rest).Good nodes deps [] :=
  .foldl_release rank _ (nodup_dependents nodes deps node) _ (h.list hready).1 (h.list hready).2

/-! ### Before the first round -/

def Progress.enter (nodes : Roll) (deps : String → List String) (rank : String → ℕ) (p : Progress)
    (node : String) : Progress :=
  { p with
    waiting := p.waiting.insert node (dependenciesIn nodes deps node).length
    ready := if (dependenciesIn nodes deps node).length = 0 then queue (rank node, node) p.ready
      else p.ready }

variable (nodes deps) in
structure Progress.Counted (done : List String) (p : Progress) : Prop where
  waiting : ∀ n ∈ done, p.waiting.getD n 0 = (dependenciesIn nodes deps n).length
  mem_ready : ∀ n, n ∈ p.ready.map Prod.snd ↔
    n ∈ done ∧ (dependenciesIn nodes deps n).length = 0
  nodup_ready : (p.ready.map Prod.snd).Nodup
  listed : p.listed = []

lemma Progress.Counted.enter {done : List String} {p : Progress} (rank : String → ℕ)
    (h : p.Counted nodes deps done) {node : String} (hnode : node ∉ done) :
    (p.enter nodes deps rank node).Counted nodes deps (done ++ [node]) := by
  have hnot : node ∉ p.ready.map Prod.snd := fun hmem => hnode ((h.mem_ready node).1 hmem).1
  refine ⟨?_, ?_, ?_, h.listed⟩
  · intro n hn
    simp only [Progress.enter, Std.TreeMap.getD_insert, Std.LawfulEqCmp.compare_eq_iff_eq]
    by_cases hne : node = n
    · simp [hne]
    · rw [if_neg hne]
      exact h.waiting n (by simpa [Ne.symm hne] using hn)
  · intro n
    simp only [Progress.enter, List.mem_append, List.mem_singleton, or_and_right]
    by_cases hzero : (dependenciesIn nodes deps node).length = 0
    · rw [if_pos hzero, ((perm_queue _ _).map Prod.snd).mem_iff, List.map_cons, List.mem_cons,
        h.mem_ready, or_comm]
      exact or_congr_right ⟨fun hn => ⟨hn, by rwa [hn]⟩, fun hn => hn.1⟩
    · have hn : ¬(n = node ∧ (dependenciesIn nodes deps n).length = 0) := by
        rintro ⟨rfl, hn⟩
        exact hzero hn
      rw [if_neg hzero, h.mem_ready, or_iff_left hn]
  · simp only [Progress.enter]
    split
    · rw [((perm_queue _ _).map Prod.snd).nodup_iff, List.map_cons, List.nodup_cons]
      exact ⟨hnot, h.nodup_ready⟩
    · exact h.nodup_ready

lemma Progress.Counted.foldl_enter (rank : String → ℕ) (l done : List String) (p : Progress)
    (hnodup : (done ++ l).Nodup) (h : p.Counted nodes deps done) :
    (l.foldl (Progress.enter nodes deps rank) p).Counted nodes deps (done ++ l) := by
  induction l generalizing done p with
  | nil => simpa using h
  | cons node l ih =>
    rw [List.append_cons] at hnodup ⊢
    have hnode : node ∉ done := by
      have := (List.nodup_append.1 hnodup).1
      rw [List.nodup_append] at this
      exact fun hmem => this.2.2 node hmem node (by simp) rfl
    exact ih (done ++ [node]) _ hnodup (h.enter rank hnode)

lemma Progress.Counted.start (rank : String → ℕ) :
    (Progress.start nodes deps rank).Counted nodes deps nodes.keys := by
  have hempty : Progress.Counted nodes deps [] ⟨∅, [], []⟩ := ⟨by simp, by simp, by simp, rfl⟩
  exact hempty.foldl_enter rank nodes.keys [] _ nodes.nodup_keys

lemma Progress.Good.start (rank : String → ℕ) :
    (Progress.start nodes deps rank).Good nodes deps [] := by
  have h : (Progress.start nodes deps rank).Counted nodes deps nodes.keys := .start rank
  refine ⟨?_, ?_, h.nodup_ready, ?_, ?_, ?_⟩
  · intro n hn
    rw [h.waiting n hn, h.listed, unlistedCount_nil]
    simp
  · intro n
    rw [h.mem_ready, h.listed]
    refine and_congr_right fun hn => ?_
    rw [h.waiting n hn]
    simp
  all_goals simp [h.listed]

/-! ### To the last round -/

lemma Progress.Good.run (rank : String → ℕ) (rounds : ℕ) {p : Progress}
    (h : p.Good nodes deps []) :
    (p.run (dependents nodes deps) rank rounds).Good nodes deps [] := by
  induction rounds generalizing p with
  | zero => exact h
  | succ rounds ih =>
    unfold Progress.run
    split
    · exact h
    · rename_i r node rest hready
      exact ih (h.take rank hready)

lemma Progress.take_listed (after : Std.TreeMap String (List String)) (rank : String → ℕ)
    (p : Progress) (node : String) (rest : List (ℕ × String)) :
    (p.take after rank node rest).listed = node :: p.listed := by
  have hfold : ∀ (l : List String) (q : Progress),
      (l.foldl (Progress.release rank) q).listed = q.listed := by
    intro l
    induction l with
    | nil => exact fun _ => rfl
    | cons n l ih => exact fun q => ih (q.release rank n)
  exact hfold _ _

lemma Progress.run_listed (after : Std.TreeMap String (List String)) (rank : String → ℕ)
    (rounds : ℕ) (p : Progress) :
    (p.run after rank rounds).ready = [] ∨
      (p.run after rank rounds).listed.length = p.listed.length + rounds := by
  induction rounds generalizing p with
  | zero => exact .inr rfl
  | succ rounds ih =>
    unfold Progress.run
    split
    · rename_i hready
      exact .inl hready
    · rename_i r node rest hready
      rcases ih (p.take after rank node rest) with h | h
      · exact .inl h
      · right
        rw [h, Progress.take_listed, List.length_cons]
        omega

lemma Progress.Good.length_listed_le {p : Progress} (h : p.Good nodes deps []) :
    p.listed.length ≤ nodes.size := by
  rw [← Roster.length_keys]
  exact (List.subperm_of_subset h.nodup_listed h.listed_sub).length_le

/-- As many rounds as there are nodes are enough. -/
lemma ready_run_eq_nil (rank : String → ℕ) :
    ((Progress.start nodes deps rank).run (dependents nodes deps) rank nodes.size).ready = [] := by
  set p := (Progress.start nodes deps rank).run (dependents nodes deps) rank nodes.size with hp
  have hgood : p.Good nodes deps [] := (Progress.Good.start rank).run rank nodes.size
  rcases Progress.run_listed (dependents nodes deps) rank nodes.size
    (Progress.start nodes deps rank) with h | h
  · exact h
  · -- everything is listed, so nothing is ready
    rw [← hp] at h
    have hsub : List.Subperm p.listed nodes.keys :=
      List.subperm_of_subset hgood.nodup_listed hgood.listed_sub
    have hperm : p.listed.Perm nodes.keys :=
      hsub.perm_of_length_le (by rw [Roster.length_keys]; omega)
    rw [← List.map_eq_nil_iff (f := Prod.snd), List.eq_nil_iff_forall_not_mem]
    intro n hn
    obtain ⟨hmem, hnot, -⟩ := (hgood.mem_ready n).1 hn
    exact hnot (hperm.mem_iff.2 hmem)

/-! ### The order -/

variable (nodes deps)

/-- A list of all nodes in which each stands behind those it depends on. -/
structure IsOrder (l : List String) : Prop where
  perm : l.Perm nodes.keys
  behind : ∀ pre n post, l = pre ++ n :: post → ∀ d ∈ deps n, d ∈ nodes.keys → d ∈ pre

variable {nodes deps}

lemma IsOrder.idxOf_lt {l : List String} (h : IsOrder nodes deps l) {n d : String}
    (hn : n ∈ nodes.keys) (hd : d ∈ deps n) (hmem : d ∈ nodes.keys) :
    l.idxOf d < l.idxOf n := by
  have hl : n ∈ l := h.perm.mem_iff.2 hn
  have hnodup : l.Nodup := h.perm.nodup_iff.2 nodes.nodup_keys
  obtain ⟨pre, post, rfl⟩ := List.append_of_mem hl
  have hpre : d ∈ pre := h.behind pre n post rfl d hd hmem
  have hnpre : n ∉ pre := fun hmem' => (List.nodup_append.1 hnodup).2.2 n hmem' n (by simp) rfl
  rw [List.idxOf_append_of_mem hpre, List.idxOf_append_of_notMem hnpre, List.idxOf_cons_self]
  exact Nat.lt_of_lt_of_le (List.idxOf_lt_length_of_mem hpre) (Nat.le_add_right _ _)

lemma IsOrder.eq_of_chain {l chain : List String} (h : IsOrder nodes deps l)
    (hperm : chain.Perm nodes.keys) (hchain : chain.IsChain fun a b => a ∈ deps b) : l = chain := by
  have hnodup : l.Nodup := h.perm.nodup_iff.2 nodes.nodup_keys
  have hl : l.Pairwise fun a b => l.idxOf a < l.idxOf b := by
    rw [List.pairwise_iff_getElem]
    intro i j hi hj hij
    rwa [hnodup.idxOf_getElem, hnodup.idxOf_getElem]
  have hlater : (chain.map l.idxOf).IsChain (· < ·) := by
    rw [List.isChain_map]
    refine List.IsChain.imp_of_mem_imp (fun a b ha hb hab => ?_) hchain
    exact h.idxOf_lt (hperm.mem_iff.1 hb) hab (hperm.mem_iff.1 ha)
  refine List.Perm.eq_of_pairwise (fun a b _ _ hab hba => ?_) hl
    (List.pairwise_map.1 hlater.pairwise) (h.perm.trans hperm.symm)
  omega

lemma order_eq_ok {rank : String → ℕ} {l : List String} (h : order nodes deps rank = .ok l) :
    let p := (Progress.start nodes deps rank).run (dependents nodes deps) rank nodes.size
    p.listed.length = nodes.size ∧ p.listed.reverse = l := by
  rw [order] at h
  split at h
  · exact ⟨‹_›, Except.ok.inj h⟩
  · cases h

/-- **Soundness**: what comes out is an order. -/
theorem isOrder_of_order {rank : String → ℕ} {l : List String}
    (h : order nodes deps rank = .ok l) : IsOrder nodes deps l := by
  set p := (Progress.start nodes deps rank).run (dependents nodes deps) rank nodes.size
  have hgood : p.Good nodes deps [] := (Progress.Good.start rank).run rank nodes.size
  obtain ⟨hlength, rfl⟩ : p.listed.length = nodes.size ∧ p.listed.reverse = l := order_eq_ok h
  refine ⟨?_, ?_⟩
  · have hsub : List.Subperm p.listed nodes.keys :=
      List.subperm_of_subset hgood.nodup_listed hgood.listed_sub
    exact (List.reverse_perm _).trans
      (hsub.perm_of_length_le (by rw [Roster.length_keys]; omega))
  · intro pre n post hsplit d hd hmem
    have hlisted : p.listed = post.reverse ++ n :: pre.reverse := by
      have := congrArg List.reverse hsplit
      simpa using this
    have := hgood.ordered n pre.reverse ⟨post.reverse, hlisted.symm⟩ d
      ((mem_dependenciesIn nodes deps).2 ⟨hd, hmem⟩)
    simpa using this

/-- **Completeness**: there is an order if dependencies go downwards. -/
theorem exists_order (rank height : String → ℕ)
    (hdown : ∀ n ∈ nodes.keys, ∀ d ∈ deps n, d ∈ nodes.keys → height d < height n) :
    ∃ l, order nodes deps rank = .ok l := by
  set p := (Progress.start nodes deps rank).run (dependents nodes deps) rank nodes.size with hp
  have hgood : p.Good nodes deps [] := (Progress.Good.start rank).run rank nodes.size
  have hnone : p.ready = [] := ready_run_eq_nil rank
  -- a lowest node that is left would be ready
  have hall : ∀ k, ∀ n ∈ nodes.keys, height n < k → n ∈ p.listed := by
    intro k
    induction k with
    | zero => intro n _ h; omega
    | succ k ih =>
      intro n hn hk
      by_contra hnot
      have hzero : p.waiting.getD n 0 = 0 := by
        rw [hgood.waiting_eq_zero_iff hn]
        intro d hd
        obtain ⟨hd, hmem⟩ := (mem_dependenciesIn nodes deps).1 hd
        have := hdown n hn d hd hmem
        exact ih d hmem (by omega)
      have hready := (hgood.mem_ready n).2 ⟨hn, hnot, hzero⟩
      simp [hnone] at hready
  have hlength : p.listed.length = nodes.size := by
    refine Nat.le_antisymm hgood.length_listed_le ?_
    rw [← Roster.length_keys]
    exact (List.subperm_of_subset nodes.nodup_keys
      fun n hn => hall (height n + 1) n hn (Nat.lt_succ_self _)).length_le
  refine ⟨p.listed.reverse, ?_⟩
  unfold order
  simp only [← hp, hlength, if_true]

end

end TimeMarch.Graph
