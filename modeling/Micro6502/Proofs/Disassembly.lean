import Micro6502.Proofs.Line
import Micro6502.Proofs.ModeChoice

namespace Micro6502

/-- The opcode of a documented instruction with the operand bytes that its mode asks for. -/
structure Encoded where
  instruction : Instruction
  opcode : UInt8
  operand : List UInt8
  decode_opcode : Instruction.decode opcode = some instruction
  length_operand : operand.length = instruction.mode.operandSize

namespace Encoded

def bytes (e : Encoded) : List UInt8 := e.opcode :: e.operand

def digits (bs : List UInt8) : Text := bs.reverse.flatMap Hexadecimal.byte

def target (pc : Nat) (offset : UInt8) : Int := (pc : Int) + 2 + offset.toInt8.toInt

/-- The text of operand bytes at an address. A branch names its target. -/
def operandText (pc : Nat) (bs : List UInt8) : AddressingMode → Text
  | .single => []
  | .immediate => '#' :: '$' :: digits bs
  | .zeroPage | .absolute => '$' :: digits bs
  | .zeroPageX | .absoluteX => '$' :: digits bs ++ [',', 'X']
  | .zeroPageY | .absoluteY => '$' :: digits bs ++ [',', 'Y']
  | .indirectX => '(' :: ('$' :: digits bs ++ [',', 'X'] ++ [')'])
  | .indirectY => '(' :: ('$' :: digits bs ++ [')']) ++ [',', 'Y']
  | .indirect => '(' :: ('$' :: digits bs ++ [')'])
  | .relative => '$' :: bs.flatMap fun offset ↦ Hexadecimal.word (UInt16.ofInt (target pc offset))

def text (e : Encoded) (pc : Nat) : Text :=
  Line.join e.instruction.mnemonic.name.toList (operandText pc e.operand e.instruction.mode)

variable {bs : List UInt8} {pc : Nat}

theorem isHexDigit_digits (bs : List UInt8) : ∀ c ∈ digits bs, Numeral.isHexDigit c = true := by
  intro c hc
  obtain ⟨b, -, hb⟩ := List.mem_flatMap.1 hc
  exact Hexadecimal.isHexDigit_byte b c hb

theorem length_digits (bs : List UInt8) : (digits bs).length = 2 * bs.length := by
  have h : ∀ l : List UInt8, (l.flatMap Hexadecimal.byte).length = 2 * l.length := by
    intro l
    induction l with
    | nil => rfl
    | cons b l ih =>
      rw [List.flatMap_cons, List.length_append, ih, List.length_cons]
      simp only [Hexadecimal.byte, List.length_cons, List.length_nil]
      omega
  rw [digits, h, List.length_reverse]

end Encoded

namespace AddressingMode

open Encoded Pattern

variable {mode : AddressingMode} {bs : List UInt8} {pc : Nat}

theorem hexDigits_digits {least most : Nat} (hl : least ≤ 2 * bs.length)
    (hm : 2 * bs.length ≤ most) : HexDigits least most (digits bs) := by
  have hlength := length_digits bs
  exact hexDigits_of_all (by omega) (by omega) (List.all_eq_true.2 (isHexDigit_digits bs))

theorem pattern_operandText (hl : bs.length = mode.operandSize) (hs : mode ≠ .single)
    (hr : mode ≠ .relative) : mode.pattern (operandText pc bs mode) (.hex (digits bs)) := by
  have hhex {least most : Nat} (hl : least ≤ 2 * bs.length) (hm : 2 * bs.length ≤ most) :
      hex least most ('$' :: digits bs) (.hex (digits bs)) :=
    ⟨_, hexDigits_digits hl hm, rfl, rfl⟩
  have hone : bs.length = 1 → hex 1 2 ('$' :: digits bs) (.hex (digits bs)) := fun h ↦
    hhex (by omega) (by omega)
  have htwo : bs.length = 2 → hex 3 4 ('$' :: digits bs) (.hex (digits bs)) := fun h ↦
    hhex (by omega) (by omega)
  cases mode with
  | single => exact absurd rfl hs
  | relative => exact absurd rfl hr
  | immediate => exact ⟨_, .inl (.inl (hone hl)), rfl⟩
  | zeroPage => exact .inl (hone hl)
  | zeroPageX | zeroPageY => exact ⟨_, _, .inl (hone hl), .inl rfl, rfl⟩
  | absolute => exact .inl (htwo hl)
  | absoluteX | absoluteY => exact ⟨_, _, .inl (htwo hl), .inl rfl, rfl⟩
  | indirectX => exact ⟨_, ⟨_, _, hone hl, .inl rfl, rfl⟩, rfl⟩
  | indirectY => exact ⟨_, _, ⟨_, hone hl, rfl⟩, .inl rfl, rfl⟩
  | indirect =>
    have h : bs.length = 2 := hl
    exact ⟨_, .inl (hhex (by omega) (by omega)), rfl⟩

theorem operand?_operandText (hl : bs.length = mode.operandSize) (hs : mode ≠ .single)
    (hr : mode ≠ .relative) :
    mode.operand? (operandText pc bs mode) = some (.hex (digits bs)) :=
  (mode.describes_pattern _ _).2 (pattern_operandText hl hs hr)

theorem dollar_mem_operandText (hs : mode ≠ .single) : '$' ∈ operandText pc bs mode := by
  cases mode with
  | single => exact absurd rfl hs
  | _ => simp [operandText]

theorem not_ambiguous_operandText (m : Mnemonic) : ¬ m.Ambiguous (operandText pc bs mode) := by
  intro h
  by_cases hs : mode = .single
  · subst hs
    exact h.ne_nil rfl
  · exact h.not_mem (dollar_mem_operandText hs)

end AddressingMode

end Micro6502
