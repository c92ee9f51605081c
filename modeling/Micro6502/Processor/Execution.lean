import Micro6502.Instruction
import Micro6502.Processor.Operation

namespace Micro6502.Processor

/-- What is said of an instruction that has been performed. A stack fault comes before a program
counter of zero. -/
def outcome (s : Processor) : Outcome :=
  match s.fault with
  | some f => .halted (.stack f)
  | none => if s.pc = 0 then .halted .programEnd else .running

/-- A break or an undocumented opcode stops the processor at once. Any other instruction is
completed, even if the stack fails it. -/
def execute (s : Processor) : Bus (Outcome × Processor) := do
  let address := s.pc
  let (opcode, s) ← fetch { s with fault := none }
  match Instruction.decode opcode with
  | none => pure (.halted (.unknownOpcode opcode address), s)
  | some i =>
    if i.mnemonic = .brk then pure (.halted (.brk address), s)
    else do
      let s ← s.perform i.mode i.mnemonic.operation
      pure (s.outcome, { s with fault := none })

def step (s : Processor) (m : Memory) : Outcome × Processor × Memory :=
  let ((outcome, s), m) := s.execute.run m
  (outcome, s, m)

end Micro6502.Processor
