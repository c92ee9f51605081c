import Micro6502.Hexadecimal
import Micro6502.Status

namespace Micro6502

inductive StackFault where
  | overflow
  | underflow
  deriving DecidableEq, Repr

inductive HaltReason where
  | brk (address : UInt16)
  | unknownOpcode (opcode : UInt8) (address : UInt16)
  /-- The program counter reached zero. -/
  | programEnd
  | stack (fault : StackFault)
  deriving DecidableEq, Repr

namespace HaltReason

def isFault : HaltReason → Bool
  | brk _ | programEnd => false
  | unknownOpcode _ _ | stack _ => true

def message : HaltReason → String
  | brk a => "BRK at $" ++ String.ofList (Hexadecimal.word a)
  | unknownOpcode opcode a =>
    "Address $" ++ String.ofList (Hexadecimal.word a) ++ " - unknown opcode $" ++
      String.ofList (Hexadecimal.byte opcode)
  | programEnd => "PC reached $0000"
  | stack .overflow => "Stack full"
  | stack .underflow => "Stack empty"

end HaltReason

inductive Outcome where
  | running
  | halted (reason : HaltReason)
  deriving DecidableEq, Repr

def Outcome.reason? : Outcome → Option HaltReason
  | running => none
  | halted reason => some reason

inductive Register where
  | a
  | x
  | y
  deriving DecidableEq, Repr

structure Processor where
  pc : UInt16
  /-- The offset of the top of the stack in page one. The stack is empty at 256 and full at 0. -/
  sp : UInt16
  a : UInt8
  x : UInt8
  y : UInt8
  status : Status
  /-- The first stack fault of the instruction being executed. -/
  fault : Option StackFault
  deriving DecidableEq, Repr

namespace Processor

def stackPage : UInt16 := 0x0100

def emptyStack : UInt16 := 0x0100

def initial (origin : UInt16) : Processor :=
  ⟨origin, emptyStack, 0, 0, 0, Flag.unused.mask, none⟩

variable (s : Processor)

def flag (f : Flag) : Bool := s.status.has f.mask

def setFlag (f : Flag) (on : Bool) : Processor :=
  { s with status := s.status.assign f.mask on }

def setZeroNegative (v : UInt8) : Processor :=
  (s.setFlag .zero (v == 0)).setFlag .negative (v &&& 0x80 != 0)

def register : Register → UInt8
  | .a => s.a
  | .x => s.x
  | .y => s.y

def setRegister (r : Register) (v : UInt8) : Processor :=
  match r with
  | .a => { s with a := v }
  | .x => { s with x := v }
  | .y => { s with y := v }

def load (r : Register) (v : UInt8) : Processor := (s.setRegister r v).setZeroNegative v

/-- A stack pointer beyond the empty stack is taken for the empty stack. -/
def setStackPointer (v : UInt16) : Processor := { s with sp := min v emptyStack }

def setStatus (v : UInt8) : Processor := { s with status := Status.ofByte v }

def recordFault (f : StackFault) : Processor := { s with fault := s.fault.or (some f) }

end Processor

end Micro6502
