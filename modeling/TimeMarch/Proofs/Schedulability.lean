import TimeMarch.Proofs.Acceptance
import TimeMarch.Proofs.Units

/-!
# Accepted Programs Have Schedules

Acceptance looks at one graph, with the arms of branches among its references. Units are ordered
over dependencies and over what the arms rely on. But whatever an arm relies on is below the branch
in the graph that was looked at, so the heights found there serve every unit.
-/

namespace TimeMarch.Schedule

open TimeMarch.Graph

variable {s : InstructionSet}

lemma mem_references_of_dependsOn {i : Instruction} {d : String} (h : d ∈ i.dependsOn) :
    d ∈ i.references := by
  unfold Instruction.references
  split
  · exact List.mem_append_left _ (List.mem_append_left _ h)
  · exact h

lemma mem_references_of_arm {i : Instruction} {yes no : NameSet} {a : String}
    (harms : i.arms? = some (yes, no)) (h : a ∈ yes ∨ a ∈ no) : a ∈ i.references := by
  unfold Instruction.references
  rw [harms]
  rcases h with h | h
  · exact List.mem_append_left _ (List.mem_append_right _ h)
  · exact List.mem_append_right _ h

/-- All ids that references lead to from an id in `ids` are in `ids`, and references go
downwards. -/
def Descends (s : InstructionSet) (height : String → ℕ) (ids : String → Prop) : Prop :=
  ∀ id, ids id → ∀ i, s.get? id = some i → ∀ r ∈ i.references, ids r ∧ height r < height id

lemma Descends.member {height : String → ℕ} {ids : String → Prop} (h : Descends s height ids)
    {outer : Std.TreeSet String} {roots : List String} (hroots : ∀ r ∈ roots, ids r) {id : String}
    (hid : id ∈ (members s outer roots).keys) : ids id ∧ ∃ r ∈ roots, height id ≤ height r := by
  rw [mem_members_iff] at hid
  induction hid with
  | root hr hout hi => exact ⟨hroots _ hr, _, hr, Nat.le_refl _⟩
  | step _ hi hd hout hi' ih =>
    obtain ⟨hid, r, hr, hle⟩ := ih
    obtain ⟨hd, hlt⟩ := h _ hid _ hi _ (mem_references_of_dependsOn hd)
    exact ⟨hd, r, hr, by omega⟩

/-- **A unit whose references go downwards is scheduled**, and it relies on nothing above its
roots. -/
theorem exists_unit_of_descends {height : String → ℕ} {ids : String → Prop}
    (h : Descends s height ids) (outer : Std.TreeSet String) (roots : List String)
    (hroots : ∀ r ∈ roots, ids r) :
    ∃ plan, unit s roots outer = .ok plan ∧
      ∀ m ∈ plan.needs.toList, ∃ r ∈ roots, height m ≤ height r := by
  induction hk : inside s outer using Nat.strongRecOn generalizing roots outer with
  | _ k ih =>
    -- the arms of a branch are scheduled and rely on nothing above the branch
    have harms : ∀ id ∈ (members s outer roots).keys, ∀ yes no : NameSet,
        armsOf s id = some (yes, no) →
        ∃ y n, unit s yes.toList (inner s outer roots) = .ok y ∧
          unit s no.toList (inner s outer roots) = .ok n ∧
          ∀ m, m ∈ y.needs ∨ m ∈ n.needs → height m < height id := by
      intro id hid yes no harm
      obtain ⟨i, hi, harm⟩ := (armsOf_eq_some s).1 harm
      obtain ⟨hids, -⟩ := h.member hroots hid
      have hlt : inside s (inner s outer roots) < k := hk ▸ inside_insertMany_lt hid
      have href : ∀ a, a ∈ yes ∨ a ∈ no → ids a ∧ height a < height id :=
        fun a ha => h id hids i hi a (mem_references_of_arm harm ha)
      obtain ⟨y, hy, hyneeds⟩ := ih _ hlt _ yes.toList (fun a ha => (href a (.inl ha)).1) rfl
      obtain ⟨n, hn, hnneeds⟩ := ih _ hlt _ no.toList (fun a ha => (href a (.inr ha)).1) rfl
      refine ⟨y, n, hy, hn, ?_⟩
      rintro m (hm | hm)
      · obtain ⟨a, ha, hle⟩ := hyneeds m hm
        exact Nat.lt_of_le_of_lt hle (href a (.inl ha)).2
      · obtain ⟨a, ha, hle⟩ := hnneeds m hm
        exact Nat.lt_of_le_of_lt hle (href a (.inr ha)).2
    have hdeps : ∀ id ∈ (members s outer roots).keys, ∀ d ∈ dependenciesOf s id,
        height d < height id := by
      intro id hid d hd
      obtain ⟨i, hi, hd⟩ := (mem_dependenciesOf s).1 hd
      exact (h id (h.member hroots hid).1 i hi d (mem_references_of_dependsOn hd)).2
    obtain ⟨plan, hplan⟩ := exists_unit height harms hdeps
    refine ⟨plan, hplan, fun m hm => ?_⟩
    obtain ⟨arms, order, ha⟩ := assembled_of_unit hplan
    rcases (ha.needs m).1 hm with hmet | ⟨id, ⟨y, n⟩, hget, hneed, -⟩
    · obtain ⟨hroot | ⟨id, hid, hd⟩, -⟩ := (mem_metOuter s outer roots).1 hmet
      · exact ⟨m, hroot, Nat.le_refl _⟩
      · obtain ⟨-, r, hr, hle⟩ := h.member hroots hid
        have := hdeps id hid m hd
        exact ⟨r, hr, by omega⟩
    · obtain ⟨hid, yes, no, harm, hy, hn⟩ := (ha.arms_iff id y n).1 hget
      obtain ⟨y', n', hy', hn', hlt⟩ := harms id hid yes no harm
      obtain rfl : y = y' := Except.ok.inj (hy.symm.trans hy')
      obtain rfl : n = n' := Except.ok.inj (hn.symm.trans hn')
      obtain ⟨-, r, hr, hle⟩ := h.member hroots hid
      have := hlt m (List.mem_append.1 hneed)
      exact ⟨r, hr, by omega⟩

/-- **Every state of an accepted program has a schedule.** -/
theorem exists_unit_of_accepted {p : Program} (hp : p.Accepted) {name : String} {st : State}
    (hst : p.state? name = some st) : ∃ plan, unit p.instructions st.roots ∅ = .ok plan := by
  obtain ⟨height, hheight⟩ := hp.height hst
  have hdescends : Descends p.instructions height (Reachable p.instructions st.roots) := by
    intro id hid i hi r hr
    obtain ⟨j, hj⟩ := hp.references hi r hr
    exact ⟨.step hid hi hr rfl hj, hheight id hid i hi r hr⟩
  have hroots : ∀ r ∈ st.roots, Reachable p.instructions st.roots r := by
    intro r hr
    obtain ⟨i, hi⟩ := hp.roots hst r hr
    exact .root hr rfl hi
  obtain ⟨plan, hplan, -⟩ := exists_unit_of_descends hdescends ∅ st.roots hroots
  exact ⟨plan, hplan⟩

end TimeMarch.Schedule
