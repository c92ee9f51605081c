import Micro6502.AddressingMode
import Micro6502.Bus
import Micro6502.Processor.Basic

namespace Micro6502

def branchTarget (next : UInt16) (offset : UInt8) : UInt16 :=
  if offset < 0x80 then next + offset.toUInt16 else next - (0x100 - offset.toUInt16)

namespace Bus

def getWord (a : UInt16) : Bus UInt16 := do
  let low ← get a
  let high ← get (a + 1)
  pure (Word.ofBytes low high)

/-- A pointer in page zero, whose second byte follows 0xFF at 0. -/
def getZeroPageWord (a : UInt8) : Bus UInt16 := do
  let low ← get a.toUInt16
  let high ← get (a + 1).toUInt16
  pure (Word.ofBytes low high)

end Bus

namespace Processor

def fetch (s : Processor) : Bus (UInt8 × Processor) := do
  let v ← Bus.get s.pc
  pure (v, { s with pc := s.pc + 1 })

def fetchWord (s : Processor) : Bus (UInt16 × Processor) := do
  let (low, s) ← s.fetch
  let (high, s) ← s.fetch
  pure (Word.ofBytes low high, s)

/-- Takes in the operand bytes and yields the effective address. The operand byte of the immediate
mode is passed over unread, since it is the operand itself. -/
def operandAddress (s : Processor) : AddressingMode → Bus (UInt16 × Processor)
  | .immediate => pure (s.pc, { s with pc := s.pc + 1 })
  | .zeroPage => do
    let (v, s) ← s.fetch
    pure (v.toUInt16, s)
  | .zeroPageX => do
    let (v, s) ← s.fetch
    pure ((v + s.x).toUInt16, s)
  | .zeroPageY => do
    let (v, s) ← s.fetch
    pure ((v + s.y).toUInt16, s)
  | .absolute => s.fetchWord
  | .absoluteX => do
    let (w, s) ← s.fetchWord
    pure (w + s.x.toUInt16, s)
  | .absoluteY => do
    let (w, s) ← s.fetchWord
    pure (w + s.y.toUInt16, s)
  | .indirectX => do
    let (v, s) ← s.fetch
    let w ← Bus.getZeroPageWord (v + s.x)
    pure (w, s)
  | .indirectY => do
    let (v, s) ← s.fetch
    let w ← Bus.getZeroPageWord v
    pure (w + s.y.toUInt16, s)
  | .indirect => do
    let (pointer, s) ← s.fetchWord
    let w ← Bus.getWord pointer
    pure (w, s)
  | .relative => do
    let (offset, s) ← s.fetch
    pure (branchTarget s.pc offset, s)
  | .single => pure (s.pc, s)

def operand (s : Processor) (mode : AddressingMode) : Bus (UInt8 × Processor) := do
  let (a, s) ← s.operandAddress mode
  let v ← Bus.get a
  pure (v, s)

end Processor

end Micro6502
