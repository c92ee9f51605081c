import Micro6502.Display.Resolution
import Micro6502.Memory

namespace Micro6502.Memory

variable (m : Memory) (r : Resolution)

def attachDisplay : Memory := m.hookWrites r.range .display

/-- Sends the display every cell as it is stored. -/
def refreshDisplay : Memory :=
  { m with
    calls := r.offsets.foldl
      (fun calls i ↦ calls.push (.pixel i (colorOf (m.peek (r.base + i))))) m.calls }

def clearDisplay : Memory := r.offsets.foldl (fun m i ↦ m.write (r.base + i) 0) m

end Micro6502.Memory
