import Mathlib.Algebra.Group.Nat.Defs
import Micro6502.Hexadecimal
import Micro6502.Proofs.Text

namespace Micro6502

namespace Numeral

variable {c : Char} {base : Nat} {ds : Text}

theorem char_le_iff {a b : Char} : a ≤ b ↔ a.toNat ≤ b.toNat := UInt32.le_iff_toNat_le

theorem isDigit_ten_iff : isDigit 10 c = true ↔ c.isDigit = true := by
  have hletters : 'a'.toNat = 97 ∧ 'A'.toNat = 65 := by decide
  rw [isDigit, decide_eq_true_iff, digit]
  by_cases hc : c.isDigit = true
  · have hrange : 48 ≤ c.toNat ∧ c.toNat ≤ 57 := Char.isDigit_iff_toNat.1 hc
    rw [if_pos hc, iff_true_right hc]
    omega
  · rw [if_neg hc, iff_false_right hc]
    simp only [char_le_iff]
    split
    · omega
    · split
      · omega
      · decide

theorem isHexDigit_iff : isHexDigit c = true ↔
    c.isDigit = true ∨ 'A' ≤ c ∧ c ≤ 'F' ∨ 'a' ≤ c ∧ c ≤ 'f' := by
  have hletters : 'a'.toNat = 97 ∧ 'f'.toNat = 102 ∧ 'A'.toNat = 65 ∧ 'F'.toNat = 70 := by decide
  rw [isHexDigit, isDigit, decide_eq_true_iff, digit]
  by_cases hc : c.isDigit = true
  · have hrange : 48 ≤ c.toNat ∧ c.toNat ≤ 57 := Char.isDigit_iff_toNat.1 hc
    rw [if_pos hc, iff_true_right (.inl hc)]
    omega
  · rw [if_neg hc, or_iff_right hc]
    simp only [char_le_iff]
    split
    · omega
    · split
      · omega
      · omega

theorem isWordChar_of_isHexDigit (h : isHexDigit c = true) : Text.isWordChar c = true := by
  have hletters : 'a'.toNat = 97 ∧ 'f'.toNat = 102 ∧ 'A'.toNat = 65 ∧ 'F'.toNat = 70 := by decide
  have hcases := isHexDigit_iff.1 h
  simp only [char_le_iff] at hcases
  rw [Text.isWordChar_iff]
  obtain hc | hc | hc := hcases
  · exact .inr (.inr (.inl (Char.isDigit_iff_toNat.1 hc)))
  · omega
  · omega

theorem foldl_lt (h : ∀ c ∈ ds, digit c < base) (n : Nat) :
    ds.foldl (fun n c ↦ n * base + digit c) n < (n + 1) * base ^ ds.length := by
  induction ds generalizing n with
  | nil => simp
  | cons c ds ih =>
    obtain ⟨hc, hds⟩ := List.forall_mem_cons.1 h
    calc ds.foldl (fun n c ↦ n * base + digit c) (n * base + digit c)
        < (n * base + digit c + 1) * base ^ ds.length := ih hds _
      _ ≤ ((n + 1) * base) * base ^ ds.length := by
        apply Nat.mul_le_mul_right
        rw [Nat.add_mul, Nat.one_mul]
        exact Nat.add_le_add_left hc _
      _ = (n + 1) * base ^ (c :: ds).length := by
        rw [List.length_cons, Nat.pow_succ', Nat.mul_assoc]

theorem value_lt (h : ∀ c ∈ ds, digit c < base) : value base ds < base ^ ds.length := by
  have hlt := foldl_lt h 0
  rwa [Nat.zero_add, Nat.one_mul] at hlt

end Numeral

namespace Hexadecimal

theorem digit_digit : ∀ n < 16, Numeral.digit (digit n) = n := by
  decide

theorem isHexDigit_digit {n : Nat} (h : n < 16) : Numeral.isHexDigit (digit n) = true := by
  rw [Numeral.isHexDigit, Numeral.isDigit, digit_digit n h]
  exact decide_eq_true h

theorem isHexDigit_byte (b : UInt8) : ∀ c ∈ byte b, Numeral.isHexDigit c = true := by
  have := b.toNat_lt
  simp only [byte, List.forall_mem_cons]
  exact ⟨isHexDigit_digit (by omega), isHexDigit_digit (by omega), nofun⟩

theorem isHexDigit_word (w : UInt16) : ∀ c ∈ word w, Numeral.isHexDigit c = true := by
  have := w.toNat_lt
  simp only [word, List.forall_mem_cons]
  exact ⟨isHexDigit_digit (by omega), isHexDigit_digit (by omega), isHexDigit_digit (by omega),
    isHexDigit_digit (by omega), nofun⟩

theorem length_word (w : UInt16) : (word w).length = 4 := rfl

theorem value_byte (b : UInt8) : Numeral.value 16 (byte b) = b.toNat := by
  have := b.toNat_lt
  simp only [Numeral.value, byte, List.foldl_cons, List.foldl_nil]
  rw [digit_digit _ (by omega), digit_digit _ (by omega)]
  omega

theorem value_byte_append (u l : UInt8) :
    Numeral.value 16 (byte u ++ byte l) = u.toNat * 256 + l.toNat := by
  have := u.toNat_lt
  have := l.toNat_lt
  simp only [Numeral.value, byte, List.cons_append, List.nil_append, List.foldl_cons,
    List.foldl_nil]
  rw [digit_digit _ (by omega), digit_digit _ (by omega), digit_digit _ (by omega),
    digit_digit _ (by omega)]
  omega

theorem value_word (w : UInt16) : Numeral.value 16 (word w) = w.toNat := by
  have := w.toNat_lt
  simp only [Numeral.value, word, List.foldl_cons, List.foldl_nil]
  rw [digit_digit _ (by omega), digit_digit _ (by omega), digit_digit _ (by omega),
    digit_digit _ (by omega)]
  omega

end Hexadecimal

end Micro6502
