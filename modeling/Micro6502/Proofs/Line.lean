import Mathlib.Data.List.TakeWhile
import Micro6502.Source.Line
import Micro6502.Proofs.Text

namespace Micro6502.Line

def join (word operand : Text) : Text :=
  match operand with
  | [] => word
  | _ => word ++ ' ' :: operand

/-- The characters that neither end an operand nor are dropped from it. -/
def IsSolid (c : Char) : Prop := Text.isBlank c = false ∧ c ≠ ';'

instance : DecidablePred IsSolid := fun _ ↦ inferInstanceAs (Decidable (_ ∧ _))

variable {t word operand : Text} {c : Char}

theorem isSolid_of_isWordChar (h : Text.isWordChar c = true) : IsSolid c := by
  refine ⟨Text.isBlank_of_isWordChar h, ?_⟩
  rintro rfl
  exact absurd h (by decide)

theorem not_mem_of_isSolid (ht : ∀ c ∈ t, IsSolid c) (hc : ¬ IsSolid c) : c ∉ t :=
  fun hm ↦ hc (ht c hm)

theorem trim_of_isSolid (ht : ∀ c ∈ t, IsSolid c) : Text.trim t = t :=
  Text.trim_eq_self (fun c hc ↦ (ht c (List.mem_of_mem_head? hc)).1)
    fun c hc ↦ (ht c (List.mem_of_getLast? hc)).1

theorem filter_of_isSolid (ht : ∀ c ∈ t, IsSolid c) : t.filter (· ≠ ' ') = t := by
  refine List.filter_eq_self.2 fun c hc ↦ decide_eq_true ?_
  rintro rfl
  exact not_mem_of_isSolid ht (by decide) hc

theorem join_eq (word operand : Text) :
    join word operand = word ++ if operand = [] then [] else ' ' :: operand := by
  cases operand with
  | nil => exact (List.append_nil word).symm
  | cons c t => rfl

theorem mem_join (h : c ∈ join word operand) : c ∈ word ∨ c = ' ' ∨ c ∈ operand := by
  rw [join_eq, List.mem_append] at h
  refine h.imp_right fun h ↦ ?_
  split at h
  · exact absurd h List.not_mem_nil
  · exact List.mem_cons.1 h

theorem head?_join (hn : word ≠ []) : (join word operand).head? = word.head? := by
  rw [join_eq, List.head?_append_of_ne_nil _ hn]

theorem join_ne_nil (hn : word ≠ []) : join word operand ≠ [] := by
  rw [join_eq]
  exact List.append_ne_nil_of_left_ne_nil hn _

theorem getLast?_join (h : operand ≠ []) : (join word operand).getLast? = operand.getLast? := by
  rw [join_eq, if_neg h, List.getLast?_append_of_ne_nil _ (List.cons_ne_nil _ _),
    List.getLast?_cons_of_ne_nil h]

variable (hw : ∀ c ∈ word, Text.isWordChar c = true) (hn : word ≠ [])
  (ho : ∀ c ∈ operand, IsSolid c)

include hw in
theorem takeWhile_join : (join word operand).takeWhile Text.isWordChar = word := by
  rw [join_eq, List.takeWhile_append_of_pos hw]
  split
  · exact List.append_nil word
  · rw [List.takeWhile_cons_of_neg (by decide), List.append_nil]

include hw in
theorem dropWhile_join : (join word operand).dropWhile Text.isWordChar =
    if operand = [] then [] else ' ' :: operand := by
  rw [join_eq, List.dropWhile_append_of_pos hw]
  split
  · rfl
  · exact List.dropWhile_cons_of_neg (by decide)

include hw hn ho in
theorem code_join : code (join word operand) = join word operand := by
  have hword : ∀ c ∈ word, IsSolid c := fun c hc ↦ isSolid_of_isWordChar (hw c hc)
  have hcomment : (join word operand).takeWhile (· ≠ ';') = join word operand := by
    rw [List.takeWhile_eq_self_iff]
    intro c hc
    obtain h | rfl | h := mem_join hc
    · exact decide_eq_true (hword c h).2
    · rfl
    · exact decide_eq_true (ho c h).2
  rw [code, hcomment]
  apply Text.trim_eq_self
  · intro c hc
    rw [head?_join hn] at hc
    exact (hword c (List.mem_of_mem_head? hc)).1
  · intro c hc
    by_cases h : operand = []
    · rw [join_eq, if_pos h, List.append_nil] at hc
      exact (hword c (List.mem_of_getLast? hc)).1
    · rw [getLast?_join h] at hc
      exact (ho c (List.mem_of_getLast? hc)).1

include hw in
theorem splitLabel_join : splitLabel (join word operand) = (none, join word operand) := by
  rw [splitLabel, dropWhile_join hw]
  by_cases h : operand = []
  · rw [if_pos h]
  · rw [if_neg h]
    rfl

include hw hn in
theorem relocation?_join : relocation? (join word operand) = none := by
  unfold relocation?
  split
  · rename_i rest h
    have hh : (join word operand).head? = word.head? := head?_join hn
    rw [h] at hh
    exact absurd (hw '*' (List.mem_of_head? hh.symm)) (by decide)
  · rfl

include ho in
theorem skip_operand : Text.skip operand = operand :=
  Text.skip_eq_self fun c hc ↦ (ho c (List.mem_of_mem_head? hc)).1

include hw hn ho in
theorem words?_join : words? (join word operand) = some (word, operand) := by
  have hfeed : '\n' ∉ operand := not_mem_of_isSolid ho (by decide)
  rw [words?, takeWhile_join hw, dropWhile_join hw]
  by_cases h : operand = []
  · subst h
    simp [hn, Text.skip]
  · have hskip : Text.skip (' ' :: operand) = operand := skip_operand ho
    simp only [if_neg h, hskip, hn, hfeed, or_self, if_false]
    rfl

include hw hn ho in
theorem parse?_join (hb : Text.capitals word ≠ bytesWord) :
    parse? (join word operand) = some ⟨none, .instruction (Text.capitals word) operand⟩ := by
  have hspace : operand.filter (· ≠ ' ') = operand := filter_of_isSolid ho
  rw [parse?, code_join hw hn ho, splitLabel_join hw]
  simp only [statement?, if_neg (join_ne_nil hn), relocation?_join hw hn, instruction?,
    words?_join hw hn ho, Option.map_some, hspace, if_neg hb]

end Micro6502.Line
