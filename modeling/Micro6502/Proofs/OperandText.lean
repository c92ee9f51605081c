import Micro6502.Proofs.Numeral
import Micro6502.Source.Operand

namespace Micro6502.Operand

variable {t u : Text} {c register : Char} {least most : Nat}

/-- Numbers and names are made of word characters, so a text that holds another character is
neither. -/
theorem hexNumber?_of_mem (hc : Text.isWordChar c = false) (hd : c ≠ '$') (h : c ∈ t) :
    hexNumber? least most t = Option.none := by
  unfold hexNumber?
  split
  · refine if_neg ?_
    rintro ⟨-, -, ha⟩
    have hx := List.all_eq_true.1 ha c ((List.mem_cons.1 h).resolve_left hd)
    exact Bool.false_ne_true (hc.symm.trans (Numeral.isWordChar_of_isHexDigit hx))
  · rfl

theorem decimalNumber?_of_mem (hc : Text.isWordChar c = false) (h : c ∈ t) :
    decimalNumber? t = Option.none := by
  refine if_neg ?_
  rintro ⟨-, -, ha⟩
  have hx : Numeral.digit c < 10 := of_decide_eq_true (List.all_eq_true.1 ha c h)
  have hh : Numeral.isHexDigit c = true := decide_eq_true (show Numeral.digit c < 16 by omega)
  exact Bool.false_ne_true (hc.symm.trans (Numeral.isWordChar_of_isHexDigit hh))

theorem label?_of_mem (hc : Text.isWordChar c = false) (h : c ∈ t) : label? t = Option.none := by
  rw [label?, word?, if_neg, Option.map_none]
  rintro ⟨-, ha⟩
  exact Bool.false_ne_true (hc.symm.trans (List.all_eq_true.1 ha c h))

theorem byte?_of_mem (hc : Text.isWordChar c = false) (hd : c ≠ '$') (h : c ∈ t) :
    byte? t = Option.none := by
  rw [byte?, hexNumber?_of_mem hc hd h, decimalNumber?_of_mem hc h, Option.or_none]

theorem hexOrLabel_of_mem (hc : Text.isWordChar c = false) (hd : c ≠ '$') (h : c ∈ t) :
    (hexNumber? least most t).or (label? t) = Option.none := by
  rw [hexNumber?_of_mem hc hd h, label?_of_mem hc h, Option.or_none]

theorem beforeIndex?_append (t : Text) (c register : Char) :
    beforeIndex? register (t ++ [',', c]) =
      if c.toUpper = register then some t else Option.none := by
  simp [beforeIndex?]

theorem inParentheses?_append (t : Text) : inParentheses? ('(' :: (t ++ [')'])) = some t := by
  simp [inParentheses?]

theorem inParentheses?_cons (hc : c ≠ '(') : inParentheses? (c :: t) = Option.none := by
  simp [inParentheses?, hc]

theorem word?_eq_some (h : word? t = some u) : t = u := by
  unfold word? at h
  split at h
  · exact Option.some.inj h
  · cases h

theorem eq_of_beforeIndex? (h : beforeIndex? register t = some u) :
    ∃ c, c.toUpper = register ∧ t = u ++ [',', c] := by
  unfold beforeIndex? at h
  split at h
  · rename_i c rest hrev
    split at h
    · rename_i hc
      cases h
      refine ⟨c, hc, List.reverse_injective ?_⟩
      rw [hrev]
      simp
    · cases h
  · cases h

theorem eq_of_inParentheses? (h : inParentheses? t = some u) :
    t = '(' :: (u ++ [')']) := by
  unfold inParentheses? at h
  split at h
  · rename_i t
    split at h
    · rename_i rest hrev
      cases h
      refine congrArg ('(' :: ·) (List.reverse_injective ?_)
      rw [hrev]
      simp
    · cases h
  · cases h

end Micro6502.Operand
