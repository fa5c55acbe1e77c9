import TimeMarch.Proofs.Safety
import TimeMarch.Proofs.Stores

/-!
# Runs, Operation by Operation

What a run comes by is written down here as a relation, with the operations carried out one by one
and over all that is emitted on the way. A piece of code that stands somewhere in a state fails
there if and only if it fails by itself, and what it fails with is what the frame ends with.
-/

namespace TimeMarch

namespace Machine

/-- How many operations a run skips where it goes on, also behind a value that it emits. -/
def Turn.skip? : Turn → Option ℕ
  | go skip => some skip
  | stop (.emitted _ _ _ _) => some 0
  | _ => none

lemma Turn.of_skip? {turn : Turn} {skip : ℕ} (h : turn.skip? = some skip) :
    turn = .go skip ∨ skip = 0 ∧ ∃ component timeId time value,
      turn = .stop (.emitted component timeId time value) := by
  unfold skip? at h
  split at h <;> cases h
  · exact .inl rfl
  · exact .inr ⟨rfl, _, _, _, _, rfl⟩

/-- What a run comes by: frames with the operations carried out one by one. -/
inductive Visits (c : Code) (s : StateCode) (host : Host Storage) (limit : ℕ) (f₀ : Frame)
    (w₀ : Storage) : Frame → Storage → Prop where
  | here : Visits c s host limit f₀ w₀ f₀ w₀
  | next {f : Frame} {w w' : Storage} {turn : Turn} {r : Registers} {skip : ℕ}
      (h : Visits c s host limit f₀ w₀ f w) (hip : f.ip < s.ops.size)
      (hact : act c s host limit s.ops[f.ip] f.toRegisters w = (turn, r, w'))
      (hturn : turn.skip? = some skip) :
      Visits c s host limit f₀ w₀ ⟨r, f.state, f.ip + 1 + skip⟩ w'

/-- A run from this frame fails, among the next so many operations. -/
def Fails (c : Code) (s : StateCode) (host : Host Storage) (limit n : ℕ) (f : Frame) (w : Storage)
    (e : MachineError) : Prop :=
  ∃ (g : Frame) (w' : Storage) (hip : g.ip < s.ops.size), Visits c s host limit f w g w' ∧
    g.ip < f.ip + n ∧ (act c s host limit s.ops[g.ip] g.toRegisters w').1 = .fail e

/-- A run from this frame gets past the next so many operations, or is over, and does not fail. Then
it has these registers. -/
def Leaves (c : Code) (s : StateCode) (host : Host Storage) (limit n : ℕ) (f : Frame)
    (w : Storage) (r : Registers) : Prop :=
  ∃ (g : Frame) (w' w'' : Storage) (turn : Turn) (hip : g.ip < s.ops.size),
    Visits c s host limit f w g w' ∧ g.ip < f.ip + n ∧
    act c s host limit s.ops[g.ip] g.toRegisters w' = (turn, r, w'') ∧ (∀ e, turn ≠ .fail e) ∧
    ∀ skip, turn.skip? = some skip → f.ip + n ≤ g.ip + 1 + skip

section

variable {c : Code} {s : StateCode} {host : Host Storage} {limit : ℕ} {f g : Frame}
  {w w' : Storage} {code rest : List Op}

namespace Visits

lemma trans {f' : Frame} {w'' : Storage} (h : Visits c s host limit f w g w')
    (h' : Visits c s host limit g w' f' w'') : Visits c s host limit f w f' w'' := by
  induction h' with
  | here => exact h
  | next _ hip hact hturn ih => exact ih.next hip hact hturn

lemma ip_le (h : Visits c s host limit f w g w') : f.ip ≤ g.ip := by
  induction h with
  | here => exact Nat.le_refl _
  | next _ _ _ _ ih =>
    simp only
    omega

lemma state_eq (h : Visits c s host limit f w g w') : g.state = f.state := by
  induction h with
  | here => rfl
  | next _ _ _ _ ih => exact ih

end Visits

lemma getElem?_of_drop_eq {k j : ℕ} (hcode : s.ops.toList.drop k = code ++ rest)
    (hj : j < code.length) : s.ops[k + j]? = code[j]? := by
  rw [← Array.getElem?_toList, ← List.getElem?_drop, hcode, List.getElem?_append_left hj]

lemma getElem_of_drop_eq_cons {k : ℕ} {op : Op} {l : List Op}
    (h : s.ops.toList.drop k = op :: l) :
    ∃ hk : k < s.ops.size, s.ops[k] = op ∧ s.ops.toList.drop (k + 1) = l := by
  have hk : k < s.ops.toList.length := by
    by_contra hge
    rw [List.drop_eq_nil_of_le (by omega)] at h
    cases h
  rw [List.drop_eq_getElem_cons hk] at h
  obtain ⟨hop, hl⟩ := List.cons.inj h
  exact ⟨by simpa using hk, by simpa using hop, hl⟩

lemma drop_eq_cons {k : ℕ} (hcode : s.ops.toList.drop f.ip = code ++ rest) (hle : f.ip ≤ k)
    (hlt : k < f.ip + code.length) (hk : k < s.ops.size) :
    code.drop (k - f.ip) = s.ops[k] :: code.drop (k - f.ip + 1) := by
  have hlt' : k - f.ip < code.length := by omega
  have hop := getElem?_of_drop_eq hcode hlt'
  rw [Nat.add_sub_cancel' hle, Array.getElem?_eq_getElem hk, List.getElem?_eq_getElem hlt'] at hop
  rw [List.drop_eq_getElem_cons hlt', ← Option.some.inj hop]

lemma result_play_of_skip? {op : Op} {rest : List Op} {r r' : Registers} {turn : Turn} {skip : ℕ}
    (hact : act c s host limit op r w = (turn, r', w')) (hturn : turn.skip? = some skip) :
    (play c s host limit (op :: rest) r w).result =
      (play c s host limit (rest.drop skip) r' w').result := by
  rcases Turn.of_skip? hturn with rfl | ⟨rfl, component, timeId, time, value, rfl⟩
  · rw [play_go hact]
  · rw [play_emitted hact]
    rfl

lemma Visits.result_play (h : Visits c s host limit f w g w')
    (hcode : s.ops.toList.drop f.ip = code ++ rest) (hlt : g.ip < f.ip + code.length) :
    (play c s host limit (code.drop (g.ip - f.ip)) g.toRegisters w').result =
      (play c s host limit code f.toRegisters w).result := by
  induction h with
  | here => rw [Nat.sub_self, List.drop_zero]
  | @next g w₁ w' turn r skip h hip hact hturn ih =>
    have hle := h.ip_le
    simp only at hlt
    have hdrop : g.ip + 1 + skip - f.ip = g.ip - f.ip + 1 + skip := by omega
    rw [← ih (by omega), drop_eq_cons hcode hle (by omega) hip, result_play_of_skip? hact hturn,
      List.drop_drop, hdrop]

lemma Turn.eq_of_result?_error {turn : Turn} {e : MachineError}
    (h : turn.result? = some (.error e)) : turn = .fail e := by
  unfold Turn.result? at h
  split at h <;> cases h
  rfl

lemma Fails.of_next {n skip : ℕ} {turn : Turn} {r : Registers} {e : MachineError}
    {hip : f.ip < s.ops.size}
    (hact : act c s host limit s.ops[f.ip] f.toRegisters w = (turn, r, w'))
    (hturn : turn.skip? = some skip)
    (h : Fails c s host limit (n - skip) ⟨r, f.state, f.ip + 1 + skip⟩ w' e) :
    Fails c s host limit (n + 1) f w e := by
  obtain ⟨g, w'', hip', hvisits, hlt, hfail⟩ := h
  have hle := hvisits.ip_le
  simp only at hlt hle
  exact ⟨g, w'', hip', (Visits.here.next hip hact hturn).trans hvisits, by omega, hfail⟩

/-- **A piece of code fails where it stands as it fails by itself.** -/
theorem fails_iff (hcode : s.ops.toList.drop f.ip = code ++ rest) {e : MachineError} :
    Fails c s host limit code.length f w e ↔
      (play c s host limit code f.toRegisters w).result = .error e := by
  constructor
  · rintro ⟨g, w', hip, hvisits, hlt, hfail⟩
    have hact : act c s host limit s.ops[g.ip] g.toRegisters w' = (.fail e, _, _) :=
      Prod.ext hfail rfl
    rw [← hvisits.result_play hcode hlt, drop_eq_cons hcode hvisits.ip_le hlt hip,
      play_ended hact rfl]
  · intro h
    generalize hr : f.toRegisters = r at h
    induction code, r, w using run_induction c s host limit generalizing f rest with
    | nil r w =>
      rw [play] at h
      cases h
    | @go op code r w skip r' w' hact ih =>
      obtain ⟨hip, rfl, hdrop⟩ := getElem_of_drop_eq_cons hcode
      subst hr
      rw [play_go hact] at h
      -- a jump may lead out of the piece, and then nothing of it is left to fail
      have hbehind : s.ops.toList.drop (f.ip + 1 + skip) =
          code.drop skip ++ rest.drop (skip - code.length) := by
        rw [← List.drop_drop, hdrop, ← List.drop_append]
        rfl
      have hfails := ih (f := ⟨r', f.state, f.ip + 1 + skip⟩) hbehind rfl h
      rw [List.length_drop] at hfails
      exact .of_next hact rfl hfails
    | @emitted op code r w component timeId time value r' w' hact ih =>
      obtain ⟨hip, rfl, hdrop⟩ := getElem_of_drop_eq_cons hcode
      subst hr
      rw [play_emitted hact] at h
      exact .of_next hact rfl (ih (f := ⟨r', f.state, f.ip + 1⟩) hdrop rfl h)
    | @ended op code r w turn result r' w' hact hresult =>
      obtain ⟨hip, rfl, -⟩ := getElem_of_drop_eq_cons hcode
      subst hr
      rw [play_ended hact hresult] at h
      obtain rfl : result = .error e := h
      refine ⟨f, w, hip, .here, ?_, by rw [hact, Turn.eq_of_result?_error hresult]⟩
      rw [List.length_cons]
      omega

lemma Visits.drive_eq_error (h : Visits c s host limit f w g w') (hs : c.state? f.state = some s)
    {n : ℕ} {e : MachineError} (hfails : Fails c s host limit n g w' e) :
    (drive c host limit f w).result = .error e := by
  obtain ⟨g', w'', hip, hvisits, -, hfail⟩ := hfails
  have hle := (h.trans hvisits).ip_le
  have hwhole : s.ops.toList.drop f.ip = s.ops.toList.drop f.ip ++ [] := (List.append_nil _).symm
  rw [drive_eq_play f w hs]
  refine (fails_iff hwhole).1 ⟨g', w'', hip, h.trans hvisits, ?_, hfail⟩
  rw [List.length_drop, Array.length_toList]
  omega

def SafeFrom (c : Code) (s : StateCode) (t : FunctionTable) (limit : ℕ) (f : Frame) (w : Storage) :
    Prop :=
  ∀ {g w'}, Visits c s (Stepper.host c (c.resolved t)) limit f w g w' →
    g.toRegisters.Safe c s (s.ops.toList.drop g.ip)

variable {t : FunctionTable}

lemma SafeFrom.of_visits (h : SafeFrom c s t limit f w)
    (hvisits : Visits c s (Stepper.host c (c.resolved t)) limit f w g w') :
    SafeFrom c s t limit g w' :=
  fun hnext => h (hvisits.trans hnext)

/-- **Runs of sound code can always go on.** -/
theorem safeFrom_of_sound (hc : c.Sound)
    (hresolved : ∀ f ∈ c.functions.symbols.keys, (t.resolve? f).isSome) (limit : ℕ) (w : Storage)
    (hs : c.state? f.state = some s)
    (hf : f.toRegisters.Safe c s (s.ops.toList.drop f.ip)) : SafeFrom c s t limit f w := by
  intro g w' h
  induction h with
  | here => exact hf
  | @next g w₁ w' turn r skip h hip hact hturn ih =>
    have hsafe := act_safe_at hc hresolved (h.state_eq.symm ▸ hs) ih hip limit w₁
    rw [hact] at hsafe
    rcases Turn.of_skip? hturn with rfl | ⟨rfl, component, timeId, time, value, rfl⟩
    · rw [← List.drop_drop]
      exact hsafe
    · exact hsafe.2 component timeId time value rfl

end

end Machine

end TimeMarch
