import Micro6502.Assembly.Encoding
import Micro6502.Source.Line

namespace Micro6502

inductive Effect where
  | bytes (values : List UInt8)
  | relocate (address : UInt16)
  deriving DecidableEq, Repr

abbrev Write := UInt16 × UInt8

namespace Effect

/-- The program counter is a number without bound, so that running past the end of memory shows. On
lines of less than `2 ^ 32` characters a counter of 32 bits is as good: before a line it is at most
`0x10000`, and the line yields less than `2 ^ 31` bytes, as commas separate the entries of a list.
-/
def next (pc : Nat) : Effect → Nat
  | bytes vs => pc + vs.length
  | relocate a => a.toNat

def place : Nat → List UInt8 → List Write
  | _, [] => []
  | pc, v :: vs => (UInt16.ofNat pc, v) :: place (pc + 1) vs

def writes (pc : Nat) : Effect → List Write
  | bytes vs => place pc vs
  | relocate _ => []

/-- The last byte of a line must lie in memory. -/
def fit (pc : Nat) : Effect → Except LineError Effect
  | bytes vs => if pc + vs.length ≤ 0x10000 then .ok (bytes vs) else .error .addressOverflow
  | relocate a => .ok (relocate a)

end Effect

namespace Statement

def fields : Text → List Text
  | [] => [[]]
  | c :: rest =>
    if c = ',' then [] :: fields rest
    else
      match fields rest with
      | [] => [[c]]
      | f :: fs => (c :: f) :: fs

def literal (entry : Text) : Except LineError UInt8 :=
  match Numeral.parse? entry with
  | some v => Literal.byte v
  | none => .error (.invalidByte entry)

def literals (list : Text) : Except LineError (List UInt8) :=
  ((fields list).filter (· ≠ [])).mapM literal

def relocation (target : Text) : Except LineError Effect :=
  match Numeral.parse? target with
  | some v => if v ≤ 0xFFFF then .ok (.relocate (UInt16.ofNat v)) else .error .relocationOutOfRange
  | none => .error (.invalidNumber target.trim)

def instruct (pass : Pass) (symbols : SymbolTable) (pc : Nat) (mnemonic operand : Text) :
    Except LineError (List UInt8) :=
  match Mnemonic.ofName? mnemonic with
  | none => .error (.unknownInstruction mnemonic)
  | some m =>
    if pc ≤ 0xFFFF then (Site.mk (UInt16.ofNat pc) pass symbols).encode m operand
    else .error .addressOverflow

def effect (pass : Pass) (symbols : SymbolTable) (pc : Nat) : Statement → Except LineError Effect
  | empty => .ok (.bytes [])
  | relocate target => relocation target
  | bytes list => (literals list).map .bytes
  | instruction m operand => (instruct pass symbols pc m operand).map .bytes

end Statement

namespace Pass

/-- The index pass only measures. A line that fails yields no bytes there, and its error is left to
the commit pass. -/
def excuse : Pass → Except LineError Effect → Except LineError Effect
  | index, .error _ => .ok (.bytes [])
  | _, r => r

def declare (pass : Pass) (number pc : Nat) (label : Option Text) (symbols : SymbolTable) :
    Except LineError SymbolTable :=
  match pass, label with
  | index, some name =>
    if pc ≤ 0xFFFF then
      match symbols.insert ⟨name, UInt16.ofNat pc, number⟩ with
      | .ok symbols => .ok symbols
      | .error existing => .error (.labelRedefined name existing.line)
    else .error .addressOverflow
  | _, _ => .ok symbols

def line (pass : Pass) (number pc : Nat) (symbols : SymbolTable) (text : Text) :
    Except LineError (SymbolTable × Effect) :=
  match Line.parse? text with
  | none => (pass.excuse (.error .malformed)).map (symbols, ·)
  | some l => do
    let symbols ← pass.declare number pc l.label symbols
    let effect ← pass.excuse (l.statement.effect pass symbols pc >>= Effect.fit pc)
    pure (symbols, effect)

structure Result where
  symbols : SymbolTable
  writes : List Write
  /-- The program counter behind the last line. -/
  counter : Except LineFailure Nat

def walk (pass : Pass) : Nat → Nat → SymbolTable → List Text → Result
  | _, pc, symbols, [] => ⟨symbols, [], .ok pc⟩
  | number, pc, symbols, text :: rest =>
    match pass.line number pc symbols text with
    | .error reason => ⟨symbols, [], .error ⟨number, text, reason⟩⟩
    | .ok (symbols, effect) =>
      let r := pass.walk (number + 1) (effect.next pc) symbols rest
      { r with writes := effect.writes pc ++ r.writes }

end Pass

end Micro6502
