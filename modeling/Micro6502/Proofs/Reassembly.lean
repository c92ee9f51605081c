import Micro6502.Proofs.Assembler
import Micro6502.Proofs.Disassembly
import Micro6502.Proofs.EncodingErrors

namespace Micro6502

namespace Encoded

open AddressingMode

variable {bs : List UInt8} {pc : Nat} {site : Site} {mode : AddressingMode}

def InReach (e : Encoded) (pc : Nat) : Prop :=
  e.instruction.mode = .relative → ∀ offset ∈ e.operand, 0 ≤ target pc offset ∧
    target pc offset ≤ 0xFFFF

theorem opcode?_instruction (e : Encoded) :
    e.instruction.mnemonic.opcode? e.instruction.mode = some e.opcode :=
  Instruction.decode_eq_some_iff.1 e.decode_opcode

theorem value_digits_one (b : UInt8) : Numeral.value 16 (digits [b]) = b.toNat :=
  Hexadecimal.value_byte b

theorem value_digits_two (l u : UInt8) :
    Numeral.value 16 (digits [l, u]) = (Word.ofBytes l u).toNat := by
  have h : digits [l, u] = Hexadecimal.byte u ++ Hexadecimal.byte l := rfl
  rw [h, Hexadecimal.value_byte_append, Word.toNat_ofBytes]

theorem operandBytes_digits (hl : bs.length = mode.operandSize) (hs : mode ≠ .single)
    (hr : mode ≠ .relative) :
    site.operandBytes mode (.hex (digits bs)) = .ok bs := by
  have hsize : mode.operandSize = 1 ∨ mode.operandSize = 2 := by
    cases mode <;> first | contradiction | decide
  have hdigits : Pattern.HexDigits 1 4 (digits bs) := hexDigits_digits (by omega) (by omega)
  have hnumber := Literal.number_eq_ok hdigits.plus_notMem (hdigits.ofDigits? le_rfl le_rfl)
  simp only [Site.operandBytes, hnumber, Except.ok_bind, Site.numberBytes, if_neg hr]
  obtain h | h := hsize
  · obtain ⟨b, rfl⟩ := List.length_eq_one_iff.1 (hl.trans h)
    rw [if_neg (by omega), value_digits_one, Literal.byte_toNat, Except.map_ok]
  · obtain ⟨l, u, rfl⟩ := List.length_eq_two.1 (hl.trans h)
    rw [if_pos h, value_digits_two, Literal.word_toNat, Except.map_ok, Site.wordBytes,
      Word.low_ofBytes, Word.high_ofBytes]

theorem ofInt_toInt8 (b : UInt8) : UInt8.ofInt b.toInt8.toInt = b := by
  have hb := b.toNat_lt
  have h : b.toInt8.toInt = if 2 * b.toNat < 2 ^ 8 then (b.toNat : Int) else b.toNat - 2 ^ 8 :=
    BitVec.toInt_eq_toNat_cond _
  apply UInt8.toNat_inj.1
  rw [UInt8.ofInt, h, UInt8.toNat_ofNat']
  split
  · omega
  · omega

theorem toNat_ofInt_target {offset : UInt8} (h₀ : 0 ≤ target pc offset)
    (h₁ : target pc offset ≤ 0xFFFF) :
    (UInt16.ofInt (target pc offset)).toNat = (target pc offset).toNat := by
  rw [UInt16.ofInt, UInt16.toNat_ofNat']
  omega

theorem branchOffset_target {offset : UInt8} (hpc : site.pc.toNat = pc)
    (h₀ : 0 ≤ target pc offset) (h₁ : target pc offset ≤ 0xFFFF) :
    site.branchOffset (UInt16.ofInt (target pc offset)) = .ok offset := by
  have hd : site.displacement (UInt16.ofInt (target pc offset)) = offset.toInt8.toInt := by
    rw [Site.displacement, toNat_ofInt_target h₀ h₁, hpc]
    simp only [target] at h₀ ⊢
    omega
  have hlo := offset.toInt8.le_toInt
  have hhi := offset.toInt8.toInt_lt
  rw [Site.branchOffset_of_reach (by omega), hd, ofInt_toInt8]

theorem pattern_relative (w : UInt16) :
    relative.pattern ('$' :: Hexadecimal.word w) (.hex (Hexadecimal.word w)) := by
  have hl := Hexadecimal.length_word w
  have hdigits := List.all_eq_true.2 (Hexadecimal.isHexDigit_word w)
  exact .inl ⟨_, Pattern.hexDigits_of_all (by omega) (by omega) hdigits, rfl, rfl⟩

theorem operandBytes_relative (w : UInt16) :
    site.operandBytes .relative (.hex (Hexadecimal.word w)) =
      (site.branchOffset w).map ([·]) := by
  have hl := Hexadecimal.length_word w
  have hdigits : Pattern.HexDigits 1 4 (Hexadecimal.word w) :=
    Pattern.hexDigits_of_all (by omega) (by omega)
      (List.all_eq_true.2 (Hexadecimal.isHexDigit_word w))
  have hvalue := hdigits.ofDigits? le_rfl le_rfl
  rw [Hexadecimal.value_word] at hvalue
  exact Site.operandBytes_relative (pattern_relative w) (.hex _ w hvalue)

/-- The mode of an instruction takes the operand text for an operand that has the same bytes. -/
theorem exists_operand (e : Encoded) (hpc : site.pc.toNat = pc) (hr : e.InReach pc) :
    ∃ o, e.instruction.mode.operand? (operandText pc e.operand e.instruction.mode) = some o ∧
      site.operandBytes e.instruction.mode o = .ok e.operand := by
  have hl := e.length_operand
  by_cases hs : e.instruction.mode = .single
  · rw [hs] at hl ⊢
    rw [List.length_eq_zero_iff.1 hl]
    exact ⟨.none, rfl, rfl⟩
  · by_cases hb : e.instruction.mode = .relative
    · have hreach := hr hb
      rw [hb] at hl ⊢
      obtain ⟨offset, ho⟩ := List.length_eq_one_iff.1 hl
      rw [ho] at hreach ⊢
      obtain ⟨h₀, h₁⟩ := hreach offset List.mem_cons_self
      refine ⟨_, (relative.describes_pattern _ _).2 (pattern_relative _), ?_⟩
      rw [operandBytes_relative, branchOffset_target hpc h₀ h₁, Except.map_ok]
    · exact ⟨_, operand?_operandText hl hs hb, operandBytes_digits hl hs hb⟩

theorem encode_operandText (e : Encoded) (hpc : site.pc.toNat = pc) (hr : e.InReach pc) :
    site.encode e.instruction.mnemonic (operandText pc e.operand e.instruction.mode) =
      .ok e.bytes := by
  obtain ⟨o, ho, hbytes⟩ := e.exists_operand hpc hr
  refine Site.encode_eq_ok_iff.2
    ⟨⟨e.instruction, o⟩, e.opcode, e.operand, ?_, e.decode_opcode, hbytes, rfl⟩
  have hsupports : e.instruction.mnemonic.supports e.instruction.mode = true :=
    Option.isSome_iff_exists.2 ⟨_, e.opcode?_instruction⟩
  have hreading : e.instruction.mnemonic.reading? (operandText pc e.operand e.instruction.mode)
      e.instruction.mode = some ⟨e.instruction, o⟩ :=
    Mnemonic.reading?_eq_some_iff.2 ⟨rfl, hsupports, ho⟩
  exact Mnemonic.findSome?_eq_some_of_not_ambiguous (not_ambiguous_operandText _) hreading
    mem_matchOrder

end Encoded

end Micro6502
