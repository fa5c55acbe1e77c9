import TimeMarch.Proofs.Meaning
import TimeMarch.Proofs.Scopes
import TimeMarch.Stepper

/-!
# Functions by Symbol and by Slot

A program calls functions by their symbols and code calls them by their slots. A stepper resolves
all symbols when it is made, so the two come to the same, and a call never finds its slot empty.
-/

namespace TimeMarch

namespace Code

def resolved (c : Code) (t : FunctionTable) : Array Function :=
  (c.functions.symbols.keys.filterMap t.resolve?).toArray

lemma getElem?_filterMap {α β : Type} {f : α → Option β} {l : List α}
    (h : ∀ a ∈ l, (f a).isSome) (i : ℕ) : (l.filterMap f)[i]? = l[i]?.bind f := by
  induction l generalizing i with
  | nil => simp
  | cons a l ih =>
    rw [List.forall_mem_cons] at h
    obtain ⟨b, hb⟩ := Option.isSome_iff_exists.1 h.1
    rw [List.filterMap_cons_some hb]
    cases i with
    | zero => simp [hb]
    | succ i => simpa using ih h.2 i

lemma callFunction_eq {c : Code} {t : FunctionTable}
    (hresolved : ∀ f ∈ c.functions.symbols.keys, (t.resolve? f).isSome) {f : String} {i : ℕ}
    (hf : c.functions.slot? f = some i) (positional : List Value)
    (keywords : List (String × Value)) :
    Stepper.callFunction c (c.resolved t) i positional keywords =
      t.apply f positional keywords := by
  have hi := (Roster.place?_eq_some_iff_getElem? _ _ _).1 hf
  have hget : (c.resolved t)[i]? = t.resolve? f := by
    rw [resolved, List.getElem?_toArray, getElem?_filterMap hresolved, hi, Option.bind_some]
  have hcall : Stepper.callFunction c (c.resolved t) i positional keywords =
      Function.reply (c.functions.name i) (c.resolved t)[i]? positional keywords := rfl
  rw [hcall, hget, SymbolTable.name_of_slot? hf, FunctionTable.apply]

end Code

lemma Function.exists_body_of_call {f : Function} {positional : List Value}
    {keywords : List (String × Value)} {result : Except String Value}
    (h : f.call positional keywords = .ok result) : ∃ args, f.body args = result := by
  unfold call at h
  split at h
  · obtain ⟨args, -, h⟩ := bind_eq_ok.1 h
    exact ⟨args, Except.ok.inj h⟩
  · split at h
    · exact ⟨positional, Except.ok.inj h⟩
    · cases h

namespace Stepper

lemma mapM_resolve {t : FunctionTable} {l : List (String × String)} {functions : List Function}
    (h : (l.mapM fun (name, _) => match t.resolve? name with
      | some f => Except.ok f
      | none => Except.error (StepperError.missingFunction name)) = .ok functions) :
    (l.map Prod.fst).filterMap t.resolve? = functions ∧
      ∀ name ∈ l.map Prod.fst, (t.resolve? name).isSome := by
  induction l generalizing functions with
  | nil =>
    obtain rfl : [] = functions := Except.ok.inj h
    exact ⟨rfl, by simp⟩
  | cons e l ih =>
    obtain ⟨name, ident⟩ := e
    rw [List.mapM_cons] at h
    obtain ⟨f, hf, h⟩ := bind_eq_ok.1 h
    obtain ⟨fs, hfs, h⟩ := bind_eq_ok.1 h
    obtain rfl : f :: fs = functions := Except.ok.inj h
    obtain ⟨hlist, hall⟩ := ih hfs
    have he : t.resolve? name = some f := by
      dsimp only at hf
      split at hf
      · rename_i f' hf'
        exact hf'.trans (congrArg some (Except.ok.inj hf))
      · cases hf
    refine ⟨?_, ?_⟩
    · rw [List.map_cons, List.filterMap_cons_some he, hlist]
    · rw [List.map_cons, List.forall_mem_cons]
      exact ⟨by rw [he]; rfl, hall⟩

lemma create_eq_ok {c : Code} {t : FunctionTable} {config : StepperConfig} {s : Stepper}
    (h : create c t config = .ok s) :
    s = { code := c, functions := c.resolved t, config, storage := .ofSize c.persistent.size } ∧
      ∀ f ∈ c.functions.symbols.keys, (t.resolve? f).isSome := by
  unfold create at h
  split at h
  · cases h
  · obtain ⟨functions, hfunctions, h⟩ := bind_eq_ok.1 h
    cases h
    obtain ⟨hlist, hall⟩ := mapM_resolve hfunctions
    refine ⟨?_, hall⟩
    rw [Code.resolved, ← hlist]
    rfl

end Stepper

end TimeMarch
