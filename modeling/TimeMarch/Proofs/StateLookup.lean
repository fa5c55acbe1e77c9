import Mathlib.Data.Set.Function
import TimeMarch.Proofs.FreshNames
import TimeMarch.Proofs.Simulation
import TimeMarch.Proofs.WellFormedness

/-!
# Finding States by Their Names

The owner of code finds a state by its name and is told 16 bits of its place. Generation checks that
places fit into operands only where it has to write an operand, which are the places of successors,
of targets of transitions and of the initial state. So code can have more states than 16 bits can
tell apart, and lookup works exactly where there are not more.
-/

namespace TimeMarch

namespace Code

/-- Finding a state by its name, and code by what was found, comes to the code of the state. -/
def RoundTrips (c : Code) (name : String) : Prop :=
  ∃ i s, c.stateOperand? name = some i ∧ c.stateAt? i = some s ∧ c.states.get? name = some s

lemma state?_eq (c : Code) (i : ℕ) : c.state? i = c.states.values[i]? := by
  simp [state?, Roster.values, Roster.toList]

lemma stateAt?_toUInt16 (c : Code) (k : ℕ) : c.stateAt? k.toUInt16 = c.state? (k % 65536) := rfl

variable {c : Code} {name : String} {k : ℕ}

lemma stateOperand?_eq (hk : c.stateIndex? name = some k) :
    c.stateOperand? name = some k.toUInt16 := by
  rw [stateOperand?, hk, Option.map_some]

lemma exists_get?_states (hk : c.stateIndex? name = some k) :
    ∃ s, c.states.get? name = some s ∧ c.state? k = some s := by
  obtain ⟨s, hs⟩ := (Roster.place?_eq_some_iff _ _ _).1 hk
  have hstate : c.state? k = some s := by
    rw [state?_eq, Roster.values, List.getElem?_map, hs, Option.map_some]
  exact ⟨s, (Roster.get?_eq_some_iff _ _ _).2 (List.mem_of_getElem? hs), hstate⟩

lemma exists_stateIndex? (hk : k < c.states.size) :
    ∃ name ∈ c.states.keys, c.stateIndex? name = some k := by
  have hlt : k < c.states.keys.length := by rwa [Roster.length_keys]
  exact ⟨c.states.keys[k], List.getElem_mem hlt,
    (Roster.place?_eq_some_iff_getElem? _ _ _).2 (List.getElem?_eq_getElem hlt)⟩

lemma exists_stateIndex?_of_mem (h : name ∈ c.states.keys) :
    ∃ k < c.states.size, c.stateIndex? name = some k := by
  obtain ⟨k, hk⟩ := List.mem_iff_getElem?.1 h
  have hplace : c.stateIndex? name = some k := (Roster.place?_eq_some_iff_getElem? _ _ _).2 hk
  exact ⟨k, Roster.place?_lt hplace, hplace⟩

lemma stateIndex?_inj {name' : String} (h : c.stateIndex? name = some k)
    (h' : c.stateIndex? name' = some k) : name = name' := by
  have hkey := (Roster.place?_eq_some_iff_getElem? _ _ _).1 h
  rw [(Roster.place?_eq_some_iff_getElem? _ _ _).1 h'] at hkey
  exact (Option.some.inj hkey).symm

/-- **16 bits tell all states apart exactly if there are not more of them** than 16 bits can tell
apart. -/
theorem injOn_stateOperand?_iff :
    Set.InjOn c.stateOperand? {name | name ∈ c.states.keys} ↔ c.states.size ≤ 65536 := by
  constructor
  · intro hinj
    by_contra hmore
    obtain ⟨first, hfirst, hzero⟩ := exists_stateIndex? (c := c) (k := 0) (by omega)
    obtain ⟨other, hother, hplace⟩ := exists_stateIndex? (c := c) (k := 65536) (by omega)
    have heq : c.stateOperand? first = c.stateOperand? other := by
      rw [stateOperand?_eq hzero, stateOperand?_eq hplace]
      rfl
    have hname := hinj hfirst hother heq
    rw [hname, hplace] at hzero
    cases hzero
  · intro hfew name hname name' hname' heq
    obtain ⟨k, hk, hplace⟩ := exists_stateIndex?_of_mem hname
    obtain ⟨k', hk', hplace'⟩ := exists_stateIndex?_of_mem hname'
    rw [stateOperand?_eq hplace, stateOperand?_eq hplace', Option.some.injEq] at heq
    have hmod : k % 65536 = k' % 65536 := congrArg UInt16.toNat heq
    obtain rfl : k = k' := by omega
    exact stateIndex?_inj hplace hplace'

section

variable (hnames : ∀ i s, c.state? i = some s → c.states.keys[i]? = some s.name)

include hnames

/-- **A state is found exactly if 16 bits tell its place.** -/
theorem roundTrips_iff (hk : c.stateIndex? name = some k) : c.RoundTrips name ↔ k < 65536 := by
  obtain ⟨s, hget, hs⟩ := exists_get?_states hk
  constructor
  · rintro ⟨i, s', hi, hs', hget'⟩
    obtain rfl := Option.some.inj (hget.symm.trans hget')
    obtain rfl := Option.some.inj (hi.symm.trans (stateOperand?_eq hk))
    rw [stateAt?_toUInt16] at hs'
    -- the same code stands at two places, so these are the same
    have hkey := (hnames _ _ hs').trans (hnames _ _ hs).symm
    have hlt := (List.getElem?_eq_some_iff.1 (hnames _ _ hs')).1
    have heq := (List.getElem?_inj hlt c.states.nodup_keys).1 hkey
    omega
  · intro hlt
    refine ⟨_, s, stateOperand?_eq hk, ?_, hget⟩
    rw [stateAt?_toUInt16, Nat.mod_eq_of_lt hlt, hs]

theorem forall_roundTrips_iff :
    (∀ name ∈ c.states.keys, c.RoundTrips name) ↔ c.states.size ≤ 65536 := by
  constructor
  · intro hall
    by_contra hmore
    obtain ⟨name, hname, hplace⟩ := exists_stateIndex? (c := c) (k := 65536) (by omega)
    have hlt := (roundTrips_iff hnames hplace).1 (hall name hname)
    omega
  · intro hfew name hname
    obtain ⟨k, hk, hplace⟩ := exists_stateIndex?_of_mem hname
    exact (roundTrips_iff hnames hplace).2 (by omega)

end

end Code

/-! ### Code with many states -/

lemma SymbolTable.exists_intern {t : SymbolTable} (h : t.size < tableLimit)
    (reserved : Std.TreeSet String) (x : String) :
    ∃ i u, t.intern reserved x = .ok (i, u) ∧ u.size ≤ t.size + 1 := by
  cases hslot : t.slot? x with
  | some i =>
    have hi : i < tableLimit := (slot?_lt hslot).trans h
    refine ⟨i, t, intern_eq_ok_iff.2 ?_, Nat.le_succ _⟩
    rw [request_of_slot? hslot, operand_eq_ok.2 ⟨hi, rfl⟩]
  | none =>
    have hrequest : t.request reserved x = _ := request_of_slot?_eq_none hslot
    rw [if_pos h] at hrequest
    refine ⟨t.size, _, intern_eq_ok_iff.2 hrequest, ?_⟩
    simp [size, Roster.size, Roster.push]

lemma Schedule.ofRoots_empty : ofRoots .empty [] = .ok [] := by
  have h : (ofRoots .empty []).toOption.map List.isEmpty = some true := by decide +kernel
  obtain ⟨steps, hsteps, hnil⟩ := Option.map_eq_some_iff.1 h
  rw [toOption_eq_some.1 hsteps, List.isEmpty_iff.1 hnil]

section

variable {p : Program} (hp : p.instructions = .empty)

include hp

lemma Lowering.exists_state_of_idle {s : State} {i : ℕ} (hroots : s.roots = [])
    (hnext : p.states.place? s.next = some i) (hi : i < tableLimit)
    (reserved : Std.TreeSet String) (t : Tables) :
    ∃ code, Lowering.state p reserved s t = .ok (code, t) := by
  have hindex : stateIndex p s.next = .ok i := by
    rw [stateIndex, hnext, operand_eq_ok]
    exact ⟨hi, rfl⟩
  refine ⟨⟨s.name, i, #[.complete], {}⟩, ?_⟩
  unfold Lowering.state
  rw [hp, hroots, Schedule.ofRoots_empty, hindex]
  rfl

/-- **Generation does not count states.** It succeeds on a program without instructions if the
places of the initial state and of all successors fit into operands. -/
theorem Code.exists_ofProgram_of_idle {reserved : List String} {words : Std.TreeSet String}
    (hreserved : reservedSet reserved = .ok words)
    (hroots : ∀ s ∈ p.states.values, s.roots = [])
    (hnext : ∀ s ∈ p.states.values, ∃ i < tableLimit, p.states.place? s.next = some i)
    (hinitial : ∃ i < tableLimit, p.states.place? p.initial = some i) :
    ∃ c, Code.ofProgram reserved p = .ok c := by
  obtain ⟨_, t₁, ht₁, hsize⟩ := SymbolTable.exists_intern (t := {}) (by decide) words timeName
  obtain ⟨_, t₂, ht₂, -⟩ := SymbolTable.exists_intern (t := t₁)
    (hsize.trans_lt (by decide)) words stepSizeName
  have hstep : ∀ s ∈ p.states.values, ∀ b : Roster StateCode × Tables,
      ∃ b', (Lowering.state p words s b.2 >>= fun r => pure (b.1.insert s.name r.1, r.2)) =
        .ok b' := by
    intro s hs b
    obtain ⟨i, hi, hplace⟩ := hnext s hs
    obtain ⟨code, hcode⟩ := Lowering.exists_state_of_idle hp (hroots s hs) hplace hi words b.2
    exact ⟨_, bind_eq_ok.2 ⟨_, hcode, rfl⟩⟩
  obtain ⟨⟨states, tables⟩, hstates⟩ := exists_foldlM hstep (Roster.empty, { persistent := t₂ })
  obtain ⟨i, hi, hplace⟩ := hinitial
  have hindex : Lowering.stateIndex p p.initial = .ok i := by
    rw [Lowering.stateIndex, hplace, operand_eq_ok]
    exact ⟨hi, rfl⟩
  exact ⟨_, bind_eq_ok.2 ⟨words, hreserved, bind_eq_ok.2 ⟨_, ht₁, bind_eq_ok.2 ⟨_, ht₂,
    bind_eq_ok.2 ⟨_, hstates, bind_eq_ok.2 ⟨i, hindex, rfl⟩⟩⟩⟩⟩⟩

end

/-- States that do nothing: so many that are their own successors, and more that go back to the
first one. -/
def idleStates (n : ℕ) (more : List String) : List State :=
  (List.range n).map (fun k => ⟨"s" ++ toString k, [], "s" ++ toString k⟩) ++
    more.map fun name => ⟨name, [], "s0"⟩

section

variable {n : ℕ} {more : List String}

lemma map_name_idleStates : (idleStates n more).map State.name =
    (List.range n).map (fun k => "s" ++ toString k) ++ more := by
  simp [idleStates, Function.comp_def]

lemma nodup_idleStates (hnodup : more.Nodup) (hmore : ∀ k : ℕ, "s" ++ toString k ∉ more) :
    ((idleStates n more).map State.name).Nodup := by
  rw [map_name_idleStates]
  refine List.nodup_append.2
    ⟨List.nodup_range.map (Name.numbered_injective "s"), hnodup, fun x hx y hy => ?_⟩
  obtain ⟨k, -, rfl⟩ := List.mem_map.1 hx
  rintro rfl
  exact hmore k hy

lemma roots_of_mem_idleStates {s : State} (hs : s ∈ idleStates n more) : s.roots = [] := by
  rcases List.mem_append.1 hs with hs | hs
  all_goals
    obtain ⟨_, -, rfl⟩ := List.mem_map.1 hs
    rfl

lemma getElem?_name_idleStates {k : ℕ} (hk : k < n) :
    ((idleStates n more).map State.name)[k]? = some ("s" ++ toString k) := by
  rw [map_name_idleStates, List.getElem?_append_left (by simpa using hk), List.getElem?_map,
    List.getElem?_range hk, Option.map_some]

lemma exists_next_of_mem_idleStates (hn : 0 < n) {s : State} (hs : s ∈ idleStates n more) :
    ∃ k < n, ((idleStates n more).map State.name)[k]? = some s.next := by
  rcases List.mem_append.1 hs with hs | hs
  · obtain ⟨k, hk, rfl⟩ := List.mem_map.1 hs
    exact ⟨k, List.mem_range.1 hk, getElem?_name_idleStates (List.mem_range.1 hk)⟩
  · obtain ⟨name, -, rfl⟩ := List.mem_map.1 hs
    exact ⟨0, hn, getElem?_name_idleStates hn⟩

variable (hn : 0 < n) (hnodup : more.Nodup) (hmore : ∀ k : ℕ, "s" ++ toString k ∉ more)

include hn hnodup hmore

lemma wellFormed_idleStates : Program.WellFormed .empty (idleStates n more) "s0" := by
  constructor
  case names => exact nodup_idleStates hnodup hmore
  case initial => exact List.mem_of_getElem? (getElem?_name_idleStates hn)
  case next =>
    intro s hs
    obtain ⟨k, -, hk⟩ := exists_next_of_mem_idleStates hn hs
    exact List.mem_of_getElem? hk
  case references => exact fun i hi => (by cases hi)
  case transition => exact fun i hi => (by cases hi)
  case roots =>
    intro s hs r hr
    rw [roots_of_mem_idleStates hs] at hr
    cases hr
  case acyclic =>
    intro s hs r hr
    rw [roots_of_mem_idleStates hs] at hr
    cases hr

/-- There is code with any number of states, if not too many of them are successors. -/
theorem exists_code_of_idleStates (hle : n ≤ tableLimit) : ∃ p c,
    Program.create .empty (idleStates n more) "s0" = .ok p ∧
    Code.ofProgram defaultReserved p = .ok c ∧
    p.states.keys = (List.range n).map (fun k => "s" ++ toString k) ++ more := by
  obtain ⟨roster, hroster⟩ := Program.exists_register (idleStates n more) .empty
    (by simpa [Roster.keys] using nodup_idleStates hnodup hmore)
  have hcheck :=
    (Program.check_iff_wellFormed hroster).2 (wellFormed_idleStates hn hnodup hmore)
  have hkeys := Program.keys_of_register hroster
  have hplace : ∀ {name : String} {k : ℕ}, ((idleStates n more).map State.name)[k]? = some name →
      roster.place? name = some k := by
    intro name k hk
    rw [Roster.place?_eq_some_iff_getElem?, hkeys, hk]
  have hmem : ∀ s ∈ roster.values, s ∈ idleStates n more := by
    rw [Program.values_of_register hroster]
    exact fun s hs => hs
  obtain ⟨words, hwords⟩ : ∃ words, reservedSet defaultReserved = .ok words := ⟨_, rfl⟩
  obtain ⟨c, hc⟩ := Code.exists_ofProgram_of_idle (p := ⟨.empty, roster, "s0"⟩) rfl hwords
    (fun s hs => roots_of_mem_idleStates (hmem s hs))
    (fun s hs => (exists_next_of_mem_idleStates hn (hmem s hs)).imp fun k hk =>
      ⟨hk.1.trans_le hle, hplace hk.2⟩)
    ⟨0, hn.trans_le hle, hplace (getElem?_name_idleStates hn)⟩
  exact ⟨_, c, bind_eq_ok.2 ⟨roster, hroster, bind_eq_ok.2 ⟨(), hcheck, rfl⟩⟩, hc,
    hkeys.trans map_name_idleStates⟩

end

/-! ### All states -/

/-- **States are found by their names exactly if 16 bits tell them apart.** Take an accepted program
and the code generated for it. The code of each state stands under the name of the state. What the
owner is told for a name are the lower 16 bits of its place, and they lead to the code of the state
if and only if the place is below 65536. So all names lead to the code of their states exactly if
there are at most 65536 states, and different names are told apart exactly then. -/
theorem states_found_iff_at_most_65536 {instructions : InstructionSet} {states : List State}
    {initial : String} {p : Program} (hp : Program.create instructions states initial = .ok p)
    {reserved : List String} {c : Code} (hc : Code.ofProgram reserved p = .ok c) :
    (∀ name st, p.state? name = some st →
      ∃ s, c.states.get? name = some s ∧ s.name = name ∧ s.Of p c.toTables st) ∧
    (∀ name k, p.states.place? name = some k → c.stateOperand? name = some k.toUInt16 ∧
      c.stateAt? k.toUInt16 = c.state? (k % 65536) ∧ (c.RoundTrips name ↔ k < 65536)) ∧
    ((∀ name ∈ p.states.keys, c.RoundTrips name) ↔ p.states.size ≤ 65536) ∧
    (Set.InjOn c.stateOperand? {name | name ∈ p.states.keys} ↔ p.states.size ≤ 65536) := by
  have hacc := Program.accepted_of_create hp
  have hof := Code.of_ofProgram hacc.name_eq hc
  have hnames : ∀ i s, c.state? i = some s → c.states.keys[i]? = some s.name :=
    fun i s hs => hof.getElem?_keys hacc hs
  have hsize : p.states.size = c.states.size := by
    rw [← Roster.length_keys, ← Roster.length_keys, hof.keys]
  refine ⟨fun name st hst => ?_, fun name k hk => ?_, ?_, ?_⟩
  · obtain ⟨k, s, hk, hs, hsof⟩ := hof.exists_code hst
    obtain ⟨s', hget, hs'⟩ := Code.exists_get?_states hk
    obtain rfl := Option.some.inj (hs.symm.trans hs')
    exact ⟨s, hget, hsof.name_eq.trans (hacc.name_eq hst), hsof⟩
  · have hplace : c.stateIndex? name = some k := (Roster.place?_congr hof.keys name).trans hk
    exact ⟨Code.stateOperand?_eq hplace, Code.stateAt?_toUInt16 c k,
      Code.roundTrips_iff hnames hplace⟩
  · rw [hsize, ← hof.keys]
    exact Code.forall_roundTrips_iff hnames
  · rw [hsize, ← hof.keys]
    exact Code.injOn_stateOperand?_iff

/-- With 65536 states all is well. -/
theorem states_found_of_65536 : ∃ p c,
    Program.create .empty (idleStates 65535 ["u"]) "s0" = .ok p ∧
    Code.ofProgram defaultReserved p = .ok c ∧ (∀ name ∈ p.states.keys, c.RoundTrips name) ∧
    Set.InjOn c.stateOperand? {name | name ∈ p.states.keys} := by
  obtain ⟨p, c, hp, hc, hkeys⟩ := exists_code_of_idleStates (n := 65535)
    (by decide) (List.nodup_singleton "u") (by simp [String.ext_iff]) (by decide)
  obtain ⟨-, -, hall, hinj⟩ := states_found_iff_at_most_65536 hp hc
  have hsize : p.states.size ≤ 65536 := by
    rw [← Roster.length_keys, hkeys, List.length_append, List.length_map, List.length_range]
    rfl
  exact ⟨p, c, hp, hc, hall.2 hsize, hinj.2 hsize⟩

/-- With one state more, the last one is taken for the first one. -/
theorem last_of_65537_taken_for_first : ∃ p c,
    Program.create .empty (idleStates 65535 ["u", "v"]) "s0" = .ok p ∧
    Code.ofProgram defaultReserved p = .ok c ∧ "s0" ∈ p.states.keys ∧ "v" ∈ p.states.keys ∧
    c.stateOperand? "v" = c.stateOperand? "s0" ∧ ¬c.RoundTrips "v" := by
  obtain ⟨p, c, hp, hc, hkeys⟩ := exists_code_of_idleStates (n := 65535)
    (by decide) (by decide : ["u", "v"].Nodup) (by simp [String.ext_iff]) (by decide)
  have hacc := Program.accepted_of_create hp
  have hof := Code.of_ofProgram hacc.name_eq hc
  have hfirst : p.states.keys[0]? = some "s0" := by
    rw [hkeys, ← map_name_idleStates]
    exact getElem?_name_idleStates (by decide)
  have hlast : p.states.keys[65536]? = some "v" := by
    have hlength : ((List.range 65535).map fun k => "s" ++ toString k).length = 65535 := by
      rw [List.length_map, List.length_range]
    rw [hkeys, List.getElem?_append_right (by omega), hlength]
    rfl
  have hindex : ∀ {k name}, p.states.keys[k]? = some name → c.stateIndex? name = some k :=
    fun h => (Roster.place?_eq_some_iff_getElem? _ _ _).2 (hof.keys ▸ h)
  refine ⟨p, c, hp, hc, List.mem_of_getElem? hfirst, List.mem_of_getElem? hlast, ?_, ?_⟩
  · rw [Code.stateOperand?_eq (hindex hfirst), Code.stateOperand?_eq (hindex hlast)]
    rfl
  · rw [Code.roundTrips_iff (fun i s hs => hof.getElem?_keys hacc hs) (hindex hlast)]
    decide

end TimeMarch
