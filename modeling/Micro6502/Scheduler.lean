import Micro6502.Processor.Execution

namespace Micro6502

/-- How many instructions were executed, the halting one included, and what they led to. -/
structure Slice where
  executed : Nat
  halt : Option HaltReason
  processor : Processor
  memory : Memory

namespace Processor

/-- Executes at most a given number of instructions. `done` counts those executed before. -/
def runAfter (done : Nat) (s : Processor) (m : Memory) : Nat → Slice
  | 0 => ⟨done, none, s, m⟩
  | n + 1 =>
    match s.step m with
    | (.halted reason, s, m) => ⟨done + 1, some reason, s, m⟩
    | (.running, s, m) => runAfter (done + 1) s m n

def run (s : Processor) (m : Memory) (n : Nat) : Slice := runAfter 0 s m n

end Processor

structure Scheduler where
  running : Bool
  quantum : Nat
  quantum_pos : 0 < quantum := by omega

namespace Scheduler

def ofQuantum (n : Nat) : Scheduler := ⟨false, max n 1, by omega⟩

def standard : Scheduler := ofQuantum 128

variable (t : Scheduler)

def start : Scheduler := { t with running := true }

def stop : Scheduler := { t with running := false }

def setQuantum (n : Nat) : Scheduler := ⟨t.running, max n 1, by omega⟩

/-- A tick of a stopped scheduler executes nothing. A halt stops the scheduler. -/
def tick (s : Processor) (m : Memory) : Scheduler × Slice :=
  if t.running then
    let slice := s.run m t.quantum
    (if slice.halt.isSome then t.stop else t, slice)
  else (t, ⟨0, none, s, m⟩)

end Scheduler

end Micro6502
