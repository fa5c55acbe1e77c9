import TimeMarch.Instruction.Fields
import TimeMarch.Proofs.ArgumentBinding

/-!
# Instructions Come Back From Their Fields

What an instruction is made of can be supplied field by field: some of the fields by position, the
others by name in any order, and those that say what they say by default not at all. For each action
the names of its fields, the defaults and the reading of the fields belong together (`Form.Of`); the
rest is binding, which gives back the values that were supplied for any signature.
-/

namespace TimeMarch

/-! ### Values bound back -/

namespace Signature

open Arguments

variable {α : Type}

def arguments (positional : List α) (keywords : List (String × α)) : List (Argument α) :=
  positional.map .positional ++ keywords.map fun e => .keyword e.1 e.2

lemma positionals_arguments (positional : List α) (keywords : List (String × α)) :
    positionals (arguments positional keywords) = positional := by
  induction positional with
  | nil =>
    induction keywords with
    | nil => rfl
    | cons e keywords ih => exact ih
  | cons a positional ih => exact congrArg (a :: ·) ih

lemma named_arguments (positional : List α) (keywords : List (String × α)) :
    named (arguments positional keywords) = keywords := by
  induction positional with
  | nil =>
    induction keywords with
    | nil => rfl
    | cons e keywords ih => exact congrArg (e :: ·) ih
  | cons a positional ih => exact ih

variable {s : Signature α} {supplied kept omitted : List (String × α)} {k : ℕ}

lemma mem_kept_or_mem_omitted (hperm : (kept ++ omitted).Perm (supplied.drop k)) {j : ℕ}
    {e : String × α} (he : supplied[j]? = some e) (hk : k ≤ j) : e ∈ kept ∨ e ∈ omitted := by
  rw [← List.mem_append, hperm.mem_iff, List.mem_iff_getElem?]
  exact ⟨j - k, by rw [List.getElem?_drop, Nat.add_sub_cancel' hk, he]⟩

section

variable (hnodup : s.params.Nodup) (hparams : s.params = supplied.map Prod.fst)
  (hperm : (kept ++ omitted).Perm (supplied.drop k))
  (homitted : ∀ e ∈ omitted, s.default? e.1 = some e.2)

include hparams in
lemma exists_supplied {j : ℕ} {p : String} (hp : s.params[j]? = some p) :
    ∃ v, supplied[j]? = some (p, v) := by
  rw [hparams, List.getElem?_map, Option.map_eq_some_iff] at hp
  obtain ⟨⟨_, v⟩, hv, rfl⟩ := hp
  exact ⟨v, hv⟩

include hnodup hparams hperm

lemma nodup_kept_append_omitted : ((kept ++ omitted).map Prod.fst).Nodup := by
  rw [(hperm.map Prod.fst).nodup_iff, List.map_drop, ← hparams]
  exact hnodup.sublist (List.drop_sublist k _)

include homitted

lemma fits_arguments : Fits s (arguments ((supplied.take k).map Prod.snd) kept) := by
  have hkeywords : keywords (arguments ((supplied.take k).map Prod.snd) kept) =
      kept.map Prod.fst := by
    rw [keywords_eq, named_arguments]
  have hlength : (positionals (arguments ((supplied.take k).map Prod.snd) kept)).length =
      min k supplied.length := by
    rw [positionals_arguments, List.length_map, List.length_take]
  constructor
  · have hrest := nodup_kept_append_omitted hnodup hparams hperm
    rw [List.map_append, List.nodup_append] at hrest
    rw [hkeywords]
    exact hrest.1
  · rw [hlength, hparams, List.length_map]
    exact Nat.min_le_right _ _
  · intro n hn
    rw [hkeywords, List.mem_map] at hn
    obtain ⟨e, he, rfl⟩ := hn
    obtain ⟨j, hj⟩ := List.mem_iff_getElem?.1 (hperm.mem_iff.1 (List.mem_append_left omitted he))
    rw [List.getElem?_drop] at hj
    exact ⟨k + j, by rw [hparams, List.getElem?_map, hj, Option.map_some], by omega⟩
  · intro j p hp hle hnot
    obtain ⟨v, hv⟩ := exists_supplied hparams hp
    have hlt := (List.getElem?_eq_some_iff.1 hv).1
    rcases mem_kept_or_mem_omitted hperm hv (by omega) with hmem | hmem
    · rw [hkeywords] at hnot
      exact absurd (List.mem_map_of_mem hmem) hnot
    · exact ⟨v, homitted _ hmem⟩

lemma valueAt?_arguments {j : ℕ} {p : String} {v : α} (hv : supplied[j]? = some (p, v)) :
    s.valueAt? (arguments ((supplied.take k).map Prod.snd) kept) j p = some v := by
  rw [valueAt?, positionals_arguments, named_arguments, List.getElem?_map]
  rcases Nat.lt_or_ge j k with hjk | hjk
  · rw [List.getElem?_take_of_lt hjk, hv]
    rfl
  · have hrest := nodup_kept_append_omitted hnodup hparams hperm
    rw [List.map_append, List.nodup_append] at hrest
    obtain ⟨hkept, -, hapart⟩ := hrest
    rw [List.getElem?_take_eq_none hjk]
    rcases mem_kept_or_mem_omitted hperm hv hjk with hmem | hmem
    · rw [(lookup_eq_some_iff_mem hkept).2 hmem]
      rfl
    · -- no keyword has the name of what is left out
      have hnone : kept.lookup p = none := by
        rw [List.lookup_eq_none_iff]
        intro e he
        exact bne_iff_ne.2 (hapart e.1 (List.mem_map_of_mem he) p (List.mem_map_of_mem hmem)).symm
      rw [hnone, homitted _ hmem]
      rfl

/-- **Values that are supplied for the parameters come back**, the first ones by position and the
others by keyword in any order, unless they are defaults and left out. -/
theorem bind_arguments :
    s.bind (arguments ((supplied.take k).map Prod.snd) kept) = .ok (supplied.map Prod.snd) := by
  rw [bind_eq_ok_iff hnodup]
  refine ⟨fits_arguments hnodup hparams hperm homitted, by simp [hparams], fun j p hp => ?_⟩
  obtain ⟨v, hv⟩ := exists_supplied hparams hp
  rw [valueAt?_arguments hnodup hparams hperm homitted hv, List.getElem?_map, hv, Option.map_some]

end

end Signature

/-! ### Fields and what they say -/

/-- What a field says. A list of ids says which ids are in it. -/
inductive Content where
  | expr (e : Expr)
  | text (s : String)
  | ids (s : NameSet)

def Field.content : Field → Content
  | expr e => .expr e
  | text s => .text s
  | ids l => .ids (.ofList l)

def Action.contents : Action → List (String × Content)
  | assign x e => [("assignee", .text x), ("expression", .expr e)]
  | branch c yes no =>
    [("condition", .expr c), ("then_depends_on", .ids yes), ("else_depends_on", .ids no)]
  | emit time timeId e component =>
    [("time", .expr time), ("time_id", .text timeId), ("expression", .expr e),
      ("component_id", .text component)]
  | abort => []
  | raise kind message => [("kind", .text kind), ("message", .text message)]
  | transition next => [("next_state", .text next)]

namespace Instruction

def contents (i : Instruction) : List (String × Content) :=
  i.action.contents ++ [("id", .text i.id), ("depends_on", .ids i.dependsOn)]

def omissible : Fields :=
  [("then_depends_on", .ids []), ("else_depends_on", .ids []), ("message", .text ""),
    ("id", .text ""), ("depends_on", .ids [])]

lemma nodup_contents (i : Instruction) : (i.contents.map Prod.fst).Nodup := by
  obtain ⟨id, dependsOn, action⟩ := i
  cases action <;> simp [contents, Action.contents]

namespace Fields

variable {f : Fields} {name : String}

def content? (f : Fields) (name : String) : Option Content := (f.lookup name).map Field.content

lemma expr_eq_ok {e : Expr} (h : f.content? name = some (.expr e)) : f.expr name = .ok e := by
  obtain ⟨field, hfield, hcontent⟩ := Option.map_eq_some_iff.1 h
  rw [Fields.expr, hfield]
  cases field <;> cases hcontent
  rfl

lemma text_eq_ok {s : String} (h : f.content? name = some (.text s)) : f.text name = .ok s := by
  obtain ⟨field, hfield, hcontent⟩ := Option.map_eq_some_iff.1 h
  rw [Fields.text, hfield]
  cases field <;> cases hcontent
  rfl

lemma ids_eq_ok {s : NameSet} (h : f.content? name = some (.ids s)) : f.ids name = .ok s := by
  obtain ⟨field, hfield, hcontent⟩ := Option.map_eq_some_iff.1 h
  rw [Fields.ids, hfield]
  cases field <;> cases hcontent
  rfl

lemma content?_of_mem (h : (f.map Prod.fst).Nodup) {c : Content}
    (hmem : (name, c) ∈ f.map fun e => (e.1, e.2.content)) : f.content? name = some c := by
  obtain ⟨⟨_, field⟩, hfield, heq⟩ := List.mem_map.1 hmem
  cases heq
  rw [content?, (Signature.lookup_eq_some_iff_mem h).2 hfield, Option.map_some]

end Fields

/-- The form belongs to the action: it has the fields of the action, and the action is read from
fields that say what its own fields say. -/
structure Form.Of (form : Form) (a : Action) : Prop where
  params : form.params = a.contents.map Prod.fst
  read : ∀ f : Fields, (∀ e ∈ a.contents, f.content? e.1 = some e.2) → form.read f = .ok a

lemma default?_of_mem_omissible {tag : String} {form : Form} (h : form? tag = some form) :
    ∀ e ∈ omissible, e.1 ∈ form.signature.params →
      form.signature.default? e.1 = some e.2 := by
  unfold form? at h
  split at h <;> cases h <;>
    simp [omissible, Form.signature, Signature.default?, List.lookup_cons]

/-- **Every action has its form.** -/
theorem exists_form (a : Action) : ∃ form, form? a.tag = some form ∧ form.Of a := by
  cases a with
  | assign x e =>
    refine ⟨_, rfl, rfl, fun f h => ?_⟩
    simp only [Action.contents, List.forall_mem_cons] at h
    obtain ⟨hassignee, hexpression, -⟩ := h
    simp only [Fields.text_eq_ok hassignee, Fields.expr_eq_ok hexpression]
    rfl
  | branch c yes no =>
    refine ⟨_, rfl, rfl, fun f h => ?_⟩
    simp only [Action.contents, List.forall_mem_cons] at h
    obtain ⟨hcondition, hthen, helse, -⟩ := h
    simp only [Fields.expr_eq_ok hcondition, Fields.ids_eq_ok hthen, Fields.ids_eq_ok helse]
    rfl
  | emit time timeId e component =>
    refine ⟨_, rfl, rfl, fun f h => ?_⟩
    simp only [Action.contents, List.forall_mem_cons] at h
    obtain ⟨htime, htimeId, hexpression, hcomponent, -⟩ := h
    simp only [Fields.expr_eq_ok htime, Fields.text_eq_ok htimeId, Fields.expr_eq_ok hexpression,
      Fields.text_eq_ok hcomponent]
    rfl
  | abort =>
    exact ⟨_, rfl, rfl, fun _ _ => rfl⟩
  | raise kind message =>
    refine ⟨_, rfl, rfl, fun f h => ?_⟩
    simp only [Action.contents, List.forall_mem_cons] at h
    obtain ⟨hkind, hmessage, -⟩ := h
    simp only [Fields.text_eq_ok hkind, Fields.text_eq_ok hmessage]
    rfl
  | transition next =>
    refine ⟨_, rfl, rfl, fun f h => ?_⟩
    simp only [Action.contents, List.forall_mem_cons] at h
    simp only [Fields.text_eq_ok h.1]
    rfl

/-- **Instructions come back from their fields.** Supply the fields of any instruction in their
order, those of its action, then the id and the dependencies; a set of ids may be listed in any
order and with repetitions. Give the first so many of them by position and behind them the others by
keyword in any order, and leave out of these any that say what they say by default. Then the
instruction of that tag and these arguments is the one that the fields were taken from. -/
theorem ofArguments_supplied (i : Instruction) {supplied : Fields}
    (hsupplied : supplied.map (fun e => (e.1, e.2.content)) = i.contents) (k : ℕ)
    {kept omitted : Fields} (hperm : (kept ++ omitted).Perm (supplied.drop k))
    (homitted : ∀ e ∈ omitted, e ∈ omissible) :
    ofArguments i.action.tag ((supplied.take k).map (fun e => .positional e.2) ++
      kept.map fun e => .keyword e.1 e.2) = .ok i := by
  obtain ⟨form, htag, hform⟩ := exists_form i.action
  have hnames : supplied.map Prod.fst = i.contents.map Prod.fst := by
    rw [← hsupplied, List.map_map]
    rfl
  have hparams : form.signature.params = supplied.map Prod.fst := by
    rw [hnames, Form.signature, hform.params, contents, List.map_append]
    rfl
  have hnodup : (supplied.map Prod.fst).Nodup := hnames ▸ i.nodup_contents
  have hdefault : ∀ e ∈ omitted, form.signature.default? e.1 = some e.2 := by
    intro e he
    have hmem : e ∈ supplied :=
      List.mem_of_mem_drop (hperm.mem_iff.1 (List.mem_append_right kept he))
    exact default?_of_mem_omissible htag e (homitted e he)
      (hparams ▸ List.mem_map_of_mem hmem)
  have hbind := Signature.bind_arguments (hparams ▸ hnodup) hparams hperm hdefault
  have hfields : form.signature.params.zip (supplied.map Prod.snd) = supplied := by
    rw [hparams, List.zip_map']
    exact List.map_id supplied
  -- the fields are found under their names, and say what those of the instruction say
  have hcontent : ∀ e ∈ i.contents, Fields.content? supplied e.1 = some e.2 :=
    fun e he => Fields.content?_of_mem hnodup (hsupplied ▸ he)
  have hread := hform.read supplied fun e he => hcontent e (List.mem_append_left _ he)
  have hid := Fields.text_eq_ok (hcontent ("id", .text i.id) (by simp [contents]))
  have hdependsOn :=
    Fields.ids_eq_ok (hcontent ("depends_on", .ids i.dependsOn) (by simp [contents]))
  rw [Signature.arguments, List.map_map] at hbind
  rw [ofArguments, htag]
  simp only [Function.comp_def] at hbind
  simp only [hbind, hfields, hread, hid, hdependsOn, bind, Except.bind, pure, Except.pure]

/-- A branch with its condition by position, two fields by keyword and two left out. -/
theorem ofArguments_supplied_branch :
    let i : Instruction := ⟨"b", ∅, .branch (.var "x") (.ofList ["a", "c"]) ∅⟩
    let yes : String × Field := ("then_depends_on", .ids ["c", "a", "c"])
    let kept : Fields := [("id", .text "b"), yes]
    let omitted : Fields := [("else_depends_on", .ids []), ("depends_on", .ids [])]
    let supplied : Fields :=
      [("condition", .expr (.var "x")), yes, ("else_depends_on", .ids []), ("id", .text "b"),
        ("depends_on", .ids [])]
    supplied.map (fun e => (e.1, e.2.content)) = i.contents ∧
    (kept ++ omitted).Perm (supplied.drop 1) ∧ (∀ e ∈ omitted, e ∈ omissible) ∧
    ofArguments "branch" [.positional (.expr (.var "x")), .keyword "id" (.text "b"),
      .keyword "then_depends_on" (.ids ["c", "a", "c"])] = .ok i := by
  intro i yes kept omitted supplied
  have hyes : NameSet.ofList ["c", "a", "c"] = .ofList ["a", "c"] := by decide +kernel
  have hnone : NameSet.ofList [] = ∅ := by decide +kernel
  have hsupplied : supplied.map (fun e => (e.1, e.2.content)) = i.contents := by
    simp [supplied, yes, i, contents, Action.contents, Field.content, hyes, hnone]
  have hperm : (kept ++ omitted).Perm (supplied.drop 1) :=
    (List.Perm.swap _ _ _).trans ((List.Perm.swap _ _ _).cons _)
  have homitted : ∀ e ∈ omitted, e ∈ omissible := by simp [omitted, omissible]
  exact ⟨hsupplied, hperm, homitted, ofArguments_supplied i hsupplied 1 hperm homitted⟩

end Instruction

end TimeMarch
