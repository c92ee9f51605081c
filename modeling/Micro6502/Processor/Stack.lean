import Micro6502.Bus
import Micro6502.Processor.Basic

namespace Micro6502.Processor

def slot (offset : UInt16) : UInt16 := stackPage + offset

/-- A push on a full stack writes nothing. -/
def push (s : Processor) (v : UInt8) : Bus Processor :=
  if s.sp = 0 then pure (s.recordFault .overflow)
  else do
    let s := { s with sp := s.sp - 1 }
    Bus.put (slot s.sp) v
    pure s

/-- A pull from an empty stack reads nothing and yields 0. -/
def pull (s : Processor) : Bus (UInt8 × Processor) :=
  if emptyStack ≤ s.sp then pure (0, s.recordFault .underflow)
  else do
    let v ← Bus.get (slot s.sp)
    pure (v, { s with sp := s.sp + 1 })

def pushWord (s : Processor) (w : UInt16) : Bus Processor := do
  let s ← s.push (Word.high w)
  s.push (Word.low w)

def pullWord (s : Processor) : Bus (UInt16 × Processor) := do
  let (low, s) ← s.pull
  let (high, s) ← s.pull
  pure (Word.ofBytes low high, s)

end Micro6502.Processor
