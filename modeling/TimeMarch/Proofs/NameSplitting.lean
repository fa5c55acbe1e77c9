import Mathlib.Data.List.Infix
import Mathlib.Tactic.Common
import TimeMarch.Namespace

/-!
# Which Names Split Alike

No tag begins with another one, so it does not matter in which order they are tried, and in most
namespaces a name can be put together again from what it splits into. Return markers are different:
three tags share one namespace, and what is left of a name is joined with a word for its tag by an
underscore. Joining is associative, and `time_id` is itself `time` joined with `id`.
-/

namespace TimeMarch.Name

/-! ### Tags -/

lemma afterTag?_eq_some_iff {tag name rest : String} :
    afterTag? tag name = some rest ↔ name = tag ++ rest := by
  rw [afterTag?, Option.map_eq_some_iff, ← String.toList_inj, String.toList_append]
  constructor
  · rintro ⟨cs, hcs, rfl⟩
    rw [String.toList_ofList]
    exact (List.isPrefixOf?_eq_some_iff_append_eq.1 hcs).symm
  · intro h
    exact ⟨rest.toList, List.isPrefixOf?_eq_some_iff_append_eq.2 h.symm, String.ofList_toList⟩

def Apart (tag tag' : String) : Prop :=
  ¬tag.toList <+: tag'.toList ∧ ¬tag'.toList <+: tag.toList

instance (tag tag' : String) : Decidable (Apart tag tag') :=
  inferInstanceAs (Decidable (_ ∧ _))

lemma Apart.afterTag?_append {tag tag' : String} (h : Apart tag tag') (rest : String) :
    afterTag? tag (tag' ++ rest) = none := by
  rw [Option.eq_none_iff_forall_ne_some]
  intro rest' hrest
  have heq := congrArg String.toList (afterTag?_eq_some_iff.1 hrest)
  rw [String.toList_append, String.toList_append] at heq
  have htag : tag.toList <+: tag'.toList ++ rest.toList := ⟨rest'.toList, heq.symm⟩
  rcases List.prefix_or_prefix_of_prefix htag ⟨rest.toList, rfl⟩ with h₁ | h₂
  · exact h.1 h₁
  · exact h.2 h₂

variable {l : List (String × Namespace × String)}

lemma splitBy_cases (l : List (String × Namespace × String)) (name : String) :
    (∃ tag space word rest, (tag, space, word) ∈ l ∧ name = tag ++ rest ∧
      splitBy l name = (space, joined word rest)) ∨ splitBy l name = (.temporary, name) := by
  induction l with
  | nil => exact .inr rfl
  | cons e l ih =>
    obtain ⟨tag, space, word⟩ := e
    rw [splitBy]
    cases hrest : afterTag? tag name with
    | some rest =>
      exact .inl ⟨tag, space, word, rest, List.mem_cons_self, afterTag?_eq_some_iff.1 hrest, rfl⟩
    | none =>
      refine ih.imp_left ?_
      rintro ⟨tag', space', word', rest, hmem, h⟩
      exact ⟨tag', space', word', rest, List.mem_cons_of_mem _ hmem, h⟩

lemma splitBy_append (h : l.Pairwise fun e e' => Apart e.1 e'.1) {tag word : String}
    {space : Namespace} (hmem : (tag, space, word) ∈ l) (rest : String) :
    splitBy l (tag ++ rest) = (space, joined word rest) := by
  induction l with
  | nil => cases hmem
  | cons e l ih =>
    obtain ⟨tag', space', word'⟩ := e
    rw [List.pairwise_cons] at h
    rw [splitBy]
    rcases List.mem_cons.1 hmem with heq | hmem
    · cases heq
      rw [afterTag?_eq_some_iff.2 rfl]
    · rw [(h.1 _ hmem).afterTag?_append]
      exact ih h.2 hmem

lemma apart_tags : tags.Pairwise fun e e' => Apart e.1 e'.1 := by decide

lemma apart_singletons : ∀ e ∈ tags, Apart e.1 timeName ∧ Apart e.1 stepSizeName := by decide

lemma Apart.append_ne {tag tag' : String} (h : Apart tag tag') (rest : String) :
    tag ++ rest ≠ tag' := by
  rintro rfl
  exact h.1 (by simp)

/-- **What a name with a tag splits into.** -/
lemma split_append {tag word : String} {space : Namespace} (hmem : (tag, space, word) ∈ tags)
    (rest : String) : split (tag ++ rest) = (space, joined word rest) := by
  obtain ⟨htime, hstep⟩ := apart_singletons _ hmem
  rw [split, if_neg (htime.append_ne rest), if_neg (hstep.append_ne rest),
    splitBy_append apart_tags hmem]

/-! ### Putting names together -/

/-- The name that splits like this, if it is not a return marker. -/
def unsplit : Namespace × String → String
  | (.time, _) => timeName
  | (.stepSize, _) => stepSizeName
  | (.state, rest) => stateTag ++ rest
  | (.global, rest) => "<p>" ++ rest
  | (.function, rest) => functionTag ++ rest
  | (.temporary, rest) => rest
  | (.returnMarker, rest) => rest

def markers : List (String × String) :=
  [("<ret_time_id>", "time_id"), ("<ret_time>", "time"), ("<ret_state>", "state")]

/-- **A name can be put together again**, or it is a return marker. -/
lemma unsplit_split_or (name : String) :
    (split name).1 ≠ .returnMarker ∧ unsplit (split name) = name ∨
      ∃ tag word rest, (tag, word) ∈ markers ∧ name = tag ++ rest ∧
        split name = (.returnMarker, joined word rest) := by
  rw [split]
  split
  · rename_i h
    exact .inl ⟨by simp, h.symm⟩
  · split
    · rename_i h
      exact .inl ⟨by simp, h.symm⟩
    · rcases splitBy_cases tags name with ⟨tag, space, word, rest, hmem, hname, h⟩ | h
      · rw [h]
        simp only [tags, List.mem_cons, Prod.mk.injEq, List.not_mem_nil, or_false] at hmem
        rcases hmem with ⟨rfl, rfl, rfl⟩ | ⟨rfl, rfl, rfl⟩ | ⟨rfl, rfl, rfl⟩ | ⟨rfl, rfl, rfl⟩ |
          ⟨rfl, rfl, rfl⟩ | ⟨rfl, rfl, rfl⟩
        · exact .inl ⟨by simp, hname.symm⟩
        · exact .inl ⟨by simp, hname.symm⟩
        · exact .inr ⟨_, _, rest, by decide, hname, rfl⟩
        · exact .inr ⟨_, _, rest, by decide, hname, rfl⟩
        · exact .inr ⟨_, _, rest, by decide, hname, rfl⟩
        · exact .inl ⟨by simp, hname.symm⟩
      · rw [h]
        exact .inl ⟨by simp, rfl⟩

/-! ### Joining words -/

@[simp] lemma joined_empty_left (v : String) : joined "" v = v := rfl

@[simp] lemma joined_empty_right (u : String) : joined u "" = u := by
  by_cases hu : u = "" <;> simp [joined, hu]

lemma joined_of_ne {u v : String} (hu : u ≠ "") (hv : v ≠ "") : joined u v = u ++ "_" ++ v := by
  simp [joined, hu, hv]

lemma joined_assoc (u v w : String) : joined (joined u v) w = joined u (joined v w) := by
  by_cases hu : u = ""
  · simp [hu]
  by_cases hv : v = ""
  · simp [hv]
  by_cases hw : w = ""
  · simp [hw]
  rw [joined_of_ne hu hv, joined_of_ne hv hw, joined_of_ne (by simp) hw, joined_of_ne hu (by simp)]
  simp only [String.append_assoc]

lemma joined_injective (u : String) : Function.Injective (joined u) := by
  intro v w h
  by_cases hu : u = ""
  · simpa [hu] using h
  by_cases hv : v = ""
  · by_cases hw : w = ""
    · rw [hv, hw]
    · simp [hv, joined_of_ne hu hw, ← String.toList_inj] at h
  · by_cases hw : w = ""
    · simp [hw, joined_of_ne hu hv, ← String.toList_inj] at h
    · rw [joined_of_ne hu hv, joined_of_ne hu hw] at h
      simpa [← String.toList_inj] using h

lemma isPrefix_joined (u v : String) : u.toList <+: (joined u v).toList := by
  by_cases hu : u = ""
  · simp [hu]
  by_cases hv : v = ""
  · simp [hv]
  · simp [joined_of_ne hu hv]

/-! ### Return markers -/

/-- The two names are the id of a time and a time that is called `id`, or `id` and so on. -/
def Confused (a b : String) : Prop :=
  ∃ rest, a = "<ret_time_id>" ++ rest ∧ b = "<ret_time>" ++ joined "id" rest

lemma joined_timeId (rest : String) : joined "time_id" rest = joined "time" (joined "id" rest) :=
  joined_assoc "time" "id" rest

lemma joined_time_ne_joined_state (rest rest' : String) :
    joined "time" rest ≠ joined "state" rest' := by
  intro h
  have htime := isPrefix_joined "time" rest
  have hstate := isPrefix_joined "state" rest'
  rw [h] at htime
  exact absurd (List.prefix_or_prefix_of_prefix htime hstate) (by decide)

lemma Confused.split_eq {a b : String} (h : Confused a b) : split a = split b := by
  obtain ⟨rest, rfl, rfl⟩ := h
  have htimeId : ("<ret_time_id>", Namespace.returnMarker, "time_id") ∈ tags := by decide
  have htime : ("<ret_time>", Namespace.returnMarker, "time") ∈ tags := by decide
  rw [split_append htimeId, split_append htime, joined_timeId]

/-- **Return markers with the same rest** are equal or confused. -/
lemma eq_or_confused {tag tag' word word' rest rest' : String} (h : (tag, word) ∈ markers)
    (h' : (tag', word') ∈ markers) (heq : joined word rest = joined word' rest') :
    tag ++ rest = tag' ++ rest' ∨ Confused (tag ++ rest) (tag' ++ rest') ∨
      Confused (tag' ++ rest') (tag ++ rest) := by
  simp only [markers, List.mem_cons, Prod.mk.injEq, List.not_mem_nil, or_false] at h h'
  rcases h with ⟨rfl, rfl⟩ | ⟨rfl, rfl⟩ | ⟨rfl, rfl⟩ <;>
    rcases h' with ⟨rfl, rfl⟩ | ⟨rfl, rfl⟩ | ⟨rfl, rfl⟩
  · exact .inl (by rw [joined_injective _ heq])
  · rw [joined_timeId] at heq
    exact .inr (.inl ⟨rest, rfl, by rw [joined_injective _ heq]⟩)
  · rw [joined_timeId] at heq
    exact absurd heq (joined_time_ne_joined_state _ _)
  · rw [joined_timeId] at heq
    exact .inr (.inr ⟨rest', rfl, by rw [joined_injective _ heq]⟩)
  · exact .inl (by rw [joined_injective _ heq])
  · exact absurd heq (joined_time_ne_joined_state _ _)
  · rw [joined_timeId] at heq
    exact absurd heq.symm (joined_time_ne_joined_state _ _)
  · exact absurd heq.symm (joined_time_ne_joined_state _ _)
  · exact .inl (by rw [joined_injective _ heq])

/-- **Names that split alike** are equal, or they are return markers of the kinds `<ret_time_id>`
and `<ret_time>` and what follows the second one is `id` joined with what follows the first one. So
all names of other namespaces are kept apart, and so are the return markers of one kind and those of
the kind `<ret_state>` from all others. -/
theorem split_eq_split_iff (a b : String) :
    split a = split b ↔ a = b ∨ Confused a b ∨ Confused b a := by
  constructor
  · intro h
    rcases unsplit_split_or a with ⟨hspace, ha⟩ | ⟨tag, word, rest, hmem, ha, hsplit⟩
    · rcases unsplit_split_or b with ⟨-, hb⟩ | ⟨tag, word, rest, -, -, hsplit⟩
      · rw [← ha, ← hb, h]
        exact .inl rfl
      · rw [h, hsplit] at hspace
        exact absurd rfl hspace
    · rcases unsplit_split_or b with ⟨hspace, -⟩ | ⟨tag', word', rest', hmem', hb, hsplit'⟩
      · rw [← h, hsplit] at hspace
        exact absurd rfl hspace
      · rw [hsplit, hsplit', Prod.mk.injEq] at h
        rw [ha, hb]
        exact eq_or_confused hmem hmem' h.2
  · rintro (rfl | h | h)
    · rfl
    · exact h.split_eq
    · exact h.split_eq.symm

/-- A marker for the id of a time, and one for a time that is called `id`. -/
theorem split_timeId_eq_split_time :
    "<ret_time_id>" ≠ "<ret_time>id" ∧ split "<ret_time_id>" = split "<ret_time>id" ∧
      "<ret_time_id>y" ≠ "<ret_time>id_y" ∧ split "<ret_time_id>y" = split "<ret_time>id_y" := by
  decide

end TimeMarch.Name
