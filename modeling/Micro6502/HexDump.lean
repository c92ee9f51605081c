import Micro6502.Hexadecimal
import Micro6502.Memory

namespace Micro6502

structure HexRow where
  address : UInt16
  bytes : List UInt8
  deriving DecidableEq, Repr

namespace HexRow

def width : Nat := 16

def asciiChar (b : UInt8) : Char := if 0x20 ≤ b && b < 0x7F then Char.ofUInt8 b else '.'

variable (r : HexRow)

def ascii : List Char := r.bytes.map asciiChar

/-- The address and the bytes, then the characters in a column of their own if they are wanted.
A short row is padded so that the columns stand below each other. -/
def format (ascii : Bool) : List Char :=
  let line := Hexadecimal.word r.address ++ [':', ' '] ++
    [' '].intercalate (r.bytes.map Hexadecimal.byte)
  if ascii then
    line ++ List.replicate ((width - r.bytes.length) * 3) ' ' ++ [' ', ' ', '|'] ++ r.ascii ++ ['|']
  else line

end HexRow

namespace Memory

/-- The bytes from an address on, as far as memory reaches. -/
def bytesFrom (m : Memory) (start : UInt16) (len : Nat) : List UInt8 :=
  (List.range' start.toNat (min len (0x10000 - start.toNat))).map fun a ↦ m.peek (UInt16.ofNat a)

end Memory

namespace HexRow

def ofBytes (start : UInt16) (bytes : List UInt8) : List HexRow :=
  match bytes with
  | [] => []
  | b :: bs =>
    ⟨start, (b :: bs).take width⟩ :: ofBytes (start + UInt16.ofNat width) ((b :: bs).drop width)
termination_by bytes.length
decreasing_by simp only [width, List.length_drop, List.length_cons]; omega

end HexRow

namespace Memory

def rows (m : Memory) (start : UInt16) (len : Nat) : List HexRow :=
  HexRow.ofBytes start (m.bytesFrom start len)

def hexDump (m : Memory) (start : UInt16) (len : Nat) (ascii : Bool) : List Char :=
  ['\n'].intercalate ((m.rows start len).map (·.format ascii))

end Memory

end Micro6502
