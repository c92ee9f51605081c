import Micro6502.Assembly.Error
import Micro6502.Instruction
import Micro6502.Source.Operand
import Micro6502.SymbolTable
import Micro6502.Word

namespace Micro6502

/-- The first reading of a source finds the addresses of its labels, the second yields its bytes. -/
inductive Pass where
  | index
  | commit
  deriving DecidableEq, Repr

structure Site where
  pc : UInt16
  pass : Pass
  symbols : SymbolTable

structure Reading extends Instruction where
  operand : Operand
  deriving DecidableEq, Repr

namespace Mnemonic

variable (m : Mnemonic)

def reading? (text : Text) (mode : AddressingMode) : Option Reading :=
  if m.supports mode then (mode.operand? text).map (⟨⟨m, mode⟩, ·⟩) else none

/-- The first mode that takes the text is chosen, even if the operand then proves too large for it.
-/
def read? (text : Text) : Option Reading := AddressingMode.matchOrder.findSome? (m.reading? text)

def mode? (text : Text) : Option AddressingMode := (m.read? text).map (·.mode)

end Mnemonic

namespace Literal

def number (base : Nat) (digits : Text) : Except LineError Nat :=
  match Numeral.ofDigits? base (Numeral.dropPlus digits) with
  | some value => .ok value
  | none => .error (.invalidNumber digits)

def byte (value : Nat) : Except LineError UInt8 :=
  if value ≤ 0xFF then .ok (UInt8.ofNat value) else .error (.valueOutOfRange value 0xFF)

def word (value : Nat) : Except LineError UInt16 :=
  if value ≤ 0xFFFF then .ok (UInt16.ofNat value) else .error (.valueOutOfRange value 0xFFFF)

end Literal

namespace Site

variable (site : Site)

def resolve (name : Text) : Except LineError (Option UInt16) :=
  match site.symbols.address? name, site.pass with
  | some a, _ => .ok (some a)
  | none, .index => .ok none
  | none, .commit => .error (.unresolvedLabel name)

/-- Stands for an address that the index pass does not know. -/
def placeholder : UInt16 := 0x1234

def displacement (target : UInt16) : Int := (target.toNat : Int) - (site.pc.toNat + 2 : Nat)

/-- The offset of a branch. In the index pass an unknown target, or one out of reach, counts as the
instruction after the branch. -/
def branchOffset (target : UInt16) : Except LineError UInt8 :=
  let d := site.displacement target
  if -128 ≤ d ∧ d ≤ 127 then .ok (UInt8.ofInt d)
  else
    match site.pass with
    | .index => .ok 0
    | .commit => .error (.branchOutOfRange target)

def wordBytes (w : UInt16) : List UInt8 := [Word.low w, Word.high w]

def numberBytes (mode : AddressingMode) (value : Nat) : Except LineError (List UInt8) :=
  if mode = .relative then do
    let target ← Literal.word value
    let offset ← site.branchOffset target
    pure [offset]
  else if mode.operandSize = 2 then (Literal.word value).map wordBytes
  else (Literal.byte value).map ([·])

/-- The bytes after the opcode. Half of an address that is not known counts as 0. -/
def operandBytes (mode : AddressingMode) : Operand → Except LineError (List UInt8)
  | .none => .ok []
  | .hex digits => do
    let value ← Literal.number 16 digits
    site.numberBytes mode value
  | .decimal digits => do
    let value ← Literal.number 10 digits
    (Literal.byte value).map ([·])
  | .label name => do
    let a ← site.resolve name
    if mode = .relative then
      match a with
      | some target => (site.branchOffset target).map ([·])
      | none => pure [0]
    else pure (wordBytes (a.getD placeholder))
  | .lowByte name => .ok [((site.symbols.address? name).map Word.low).getD 0]
  | .highByte name => .ok [((site.symbols.address? name).map Word.high).getD 0]

def encode (m : Mnemonic) (text : Text) : Except LineError (List UInt8) :=
  match m.read? text with
  | none => .error (.invalidOperand m text)
  | some r =>
    match m.opcode? r.mode with
    | none => .error .malformed
    | some opcode => (site.operandBytes r.mode r.operand).map (opcode :: ·)

end Site

end Micro6502
