import Mathlib.Data.List.Pairwise
import Micro6502.Source.Line
import Micro6502.Proofs.Text

namespace Micro6502.Line

variable {text name : Text} {lines : List Text}

def label? (text : Text) : Option Text := (parse? text).bind Line.label

/-- A line begins with a name and a colon, once its comment and the blanks around it are gone. -/
def Defines (text name : Text) : Prop :=
  name ≠ [] ∧ (∀ c ∈ name, Text.isWordChar c = true) ∧ ∃ rest, code text = name ++ ':' :: rest

def Unique (lines : List Text) : Prop :=
  lines.Pairwise fun t u ↦ ∀ name, Defines t name → ¬ Defines u name

theorem newline_not_mem_code (h : '\n' ∉ text) : '\n' ∉ code text := by
  intro hm
  have htake : '\n' ∈ text.takeWhile (· ≠ ';') := Text.mem_of_mem_trim hm
  exact h ((List.takeWhile_prefix _).subset htake)

theorem splitLabel_eq_some_iff (h : '\n' ∉ text) :
    (splitLabel (code text)).1 = some name ↔ Defines text name := by
  unfold splitLabel Defines
  constructor
  · intro hs
    split at hs
    · rename_i rest hrest
      split at hs
      · rename_i hc
        cases hs
        refine ⟨hc.1, fun c hc ↦ List.all_eq_true.1 List.all_takeWhile c hc, rest, ?_⟩
        rw [← hrest, List.takeWhile_append_dropWhile]
      · cases hs
    · cases hs
  · rintro ⟨hne, hw, rest, hrest⟩
    have hcode := newline_not_mem_code h
    have htake : (code text).takeWhile Text.isWordChar = name := by
      rw [hrest, List.takeWhile_append_of_pos hw, List.takeWhile_cons_of_neg (by decide),
        List.append_nil]
    have hdrop : (code text).dropWhile Text.isWordChar = ':' :: rest := by
      rw [hrest, List.dropWhile_append_of_pos hw, List.dropWhile_cons_of_neg (by decide)]
    have hfeed : '\n' ∉ Text.skip rest := by
      intro hm
      rw [hrest] at hcode
      exact hcode (List.mem_append_right _ (List.mem_cons_of_mem _ (Text.mem_of_mem_skip hm)))
    simp only [hdrop, htake]
    rw [if_pos ⟨hne, hfeed⟩]

theorem label?_eq_some_iff (h : '\n' ∉ text) :
    label? text = some name ↔ (parse? text).isSome ∧ Defines text name := by
  rw [← splitLabel_eq_some_iff h, label?, parse?]
  rcases splitLabel (code text) with ⟨label, rest⟩
  cases hst : statement? rest with
  | none => simp [hst]
  | some st => simp [hst]

theorem unique_iff (h : ∀ t ∈ lines, '\n' ∉ t) :
    Unique lines ↔ (lines.filterMap fun t ↦ (splitLabel (code t)).1).Nodup := by
  rw [List.Nodup, List.pairwise_filterMap]
  constructor
  · intro hunique
    refine hunique.imp_of_mem ?_
    rintro t u ht hu htu name htn _ hun rfl
    exact htu name ((splitLabel_eq_some_iff (h t ht)).1 htn)
      ((splitLabel_eq_some_iff (h u hu)).1 hun)
  · intro hnodup
    refine hnodup.imp_of_mem ?_
    intro t u ht hu htu name htn hun
    exact htu name ((splitLabel_eq_some_iff (h t ht)).2 htn) name
      ((splitLabel_eq_some_iff (h u hu)).2 hun) rfl

theorem Unique.eq_of_defines {t u : Text} (hlines : Unique lines) (ht : t ∈ lines) (hu : u ∈ lines)
    (htn : Defines t name) (hun : Defines u name) : t = u := by
  by_contra hne
  have hsymm : Std.Symm fun t u ↦ ∀ name, Defines t name → ¬ Defines u name :=
    ⟨fun t u h name hu ht ↦ h name ht hu⟩
  exact List.Pairwise.forall hlines ht hu hne name htn hun

end Micro6502.Line
