namespace Micro6502

inductive AddressingMode where
  | immediate
  | zeroPage
  | zeroPageX
  | zeroPageY
  | absolute
  | absoluteX
  | absoluteY
  | indirectX
  | indirectY
  /-- No operand bytes: implied instructions and the accumulator form of the shifts. -/
  | single
  | relative
  | indirect
  deriving DecidableEq, Repr

namespace AddressingMode

def name : AddressingMode → String
  | immediate => "Immediate"
  | zeroPage => "ZeroPage"
  | zeroPageX => "ZeroPageX"
  | zeroPageY => "ZeroPageY"
  | absolute => "Absolute"
  | absoluteX => "AbsoluteX"
  | absoluteY => "AbsoluteY"
  | indirectX => "IndirectX"
  | indirectY => "IndirectY"
  | single => "Single"
  | relative => "Relative"
  | indirect => "Indirect"

/-- The order in which the modes are tried on an operand text. Page zero comes before the absolute
form that shares its texts. -/
def matchOrder : List AddressingMode :=
  [single, immediate, zeroPage, zeroPageX, zeroPageY, absoluteX, absoluteY, indirectX, indirectY,
    absolute, relative, indirect]

def operandSize : AddressingMode → Nat
  | single => 0
  | immediate | zeroPage | zeroPageX | zeroPageY | indirectX | indirectY | relative => 1
  | absolute | absoluteX | absoluteY | indirect => 2

def instructionSize (mode : AddressingMode) : Nat := 1 + mode.operandSize

theorem mem_matchOrder (mode : AddressingMode) : mode ∈ matchOrder := by
  cases mode <;> decide

end AddressingMode

end Micro6502
