import Micro6502.Hexadecimal
import Micro6502.Mnemonic
import Micro6502.Source.Text

namespace Micro6502

inductive ErrorKind where
  | malformed
  | labelRedefinition
  | range
  | unresolvedLabel
  deriving DecidableEq, Repr

inductive LineError where
  | malformed
  | unknownInstruction (name : Text)
  | invalidOperand (mnemonic : Mnemonic) (operand : Text)
  | invalidNumber (numeral : Text)
  | invalidByte (entry : Text)
  | labelRedefined (name : Text) (firstLine : Nat)
  | valueOutOfRange (value max : Nat)
  | relocationOutOfRange
  | branchOutOfRange (target : UInt16)
  | addressOverflow
  | unresolvedLabel (name : Text)
  deriving DecidableEq, Repr

namespace LineError

def kind : LineError → ErrorKind
  | malformed | unknownInstruction _ | invalidOperand _ _ | invalidNumber _ | invalidByte _ =>
    .malformed
  | labelRedefined _ _ => .labelRedefinition
  | valueOutOfRange _ _ | relocationOutOfRange | branchOutOfRange _ | addressOverflow => .range
  | unresolvedLabel _ => .unresolvedLabel

def message : LineError → String
  | malformed => "syntax error"
  | unknownInstruction name => "unknown instruction `" ++ String.ofList name ++ "`"
  | invalidOperand m operand =>
    "invalid operand `" ++ String.ofList operand ++ "` for " ++ m.name
  | invalidNumber numeral => "invalid number `" ++ String.ofList numeral ++ "`"
  | invalidByte entry => "invalid DCB value `" ++ String.ofList entry ++ "`"
  | labelRedefined name n =>
    "label `" ++ String.ofList name ++ "` already defined at line " ++ n.repr
  | valueOutOfRange v max => "value " ++ v.repr ++ " out of range (max " ++ max.repr ++ ")"
  | relocationOutOfRange => "unable to relocate code outside 64k memory"
  | branchOutOfRange target =>
    "branch target $" ++ String.ofList (Hexadecimal.word target) ++ " out of range"
  | addressOverflow => "program does not fit in 64k memory"
  | unresolvedLabel name => "undefined label `" ++ String.ofList name ++ "`"

end LineError

/-- The first line that fails, counted from 1. -/
structure LineFailure where
  line : Nat
  text : Text
  reason : LineError
  deriving DecidableEq, Repr

inductive AssemblyError where
  | line (failure : LineFailure)
  | noCode
  deriving DecidableEq, Repr

namespace LineFailure

variable (f : LineFailure)

def message : String :=
  "line " ++ f.line.repr ++ ": " ++ f.reason.message ++ ": " ++ String.ofList f.text

def report : List String :=
  let place := "line " ++ f.line.repr ++ ": " ++ String.ofList f.text
  match f.reason with
  | .labelRedefined _ _ => ["label already defined at " ++ place]
  | reason => [reason.message, "syntax error - " ++ place]

end LineFailure

namespace AssemblyError

def message : AssemblyError → String
  | line f => f.message
  | noCode => "no code to run"

def failure? : AssemblyError → Option LineFailure
  | line f => some f
  | noCode => none

end AssemblyError

end Micro6502
