import Micro6502.Memory

namespace Micro6502

/-- Hands out recorded numbers one after the other. The last one repeats, and none at all count as
zeros. -/
def replay (draws : Array UInt32) (n : Nat) : UInt32 :=
  draws[min n (draws.size - 1)]?.getD 0

namespace Memory

def attachRandom (m : Memory) (a : UInt16) (draw : Nat → UInt32) : Memory :=
  m.hookReads ⟨a, a⟩ (.random draw)

end Memory

end Micro6502
