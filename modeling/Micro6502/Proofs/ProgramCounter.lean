import Micro6502.Processor.Execution
import Micro6502.Proofs.Access

namespace Micro6502

namespace Processor

variable (s : Processor) (m : Memory)

@[simp] theorem pc_setFlag (f : Flag) (on : Bool) : (s.setFlag f on).pc = s.pc := rfl

@[simp] theorem pc_setZeroNegative (v : UInt8) : (s.setZeroNegative v).pc = s.pc := rfl

@[simp] theorem pc_load (r : Register) (v : UInt8) : (s.load r v).pc = s.pc := by
  cases r <;> rfl

@[simp] theorem pc_addWithCarry (v : UInt8) : (s.addWithCarry v).pc = s.pc := rfl

@[simp] theorem pc_subtractWithCarry (v : UInt8) : (s.subtractWithCarry v).pc = s.pc := rfl

@[simp] theorem pc_compare (r v : UInt8) : (s.compare r v).pc = s.pc := rfl

@[simp] theorem pc_bitTest (v : UInt8) : (s.bitTest v).pc = s.pc := rfl

@[simp] theorem run_fetch :
    s.fetch.run m = (((m.read s.pc).1, { s with pc := s.pc + 1 }), (m.read s.pc).2) := rfl

@[simp] theorem pc_fetchWord : (s.fetchWord.run m).1.2.pc = s.pc + 2 := by
  simp only [fetchWord, Bus.run_bind, run_fetch, Bus.run_pure]
  rw [UInt16.add_assoc]
  rfl

theorem pc_operandAddress (mode : AddressingMode) :
    ((s.operandAddress mode).run m).1.2.pc = s.pc + UInt16.ofNat mode.operandSize := by
  cases mode with
  | single => exact (UInt16.add_zero _).symm
  | immediate => rfl
  | zeroPage | zeroPageX | zeroPageY | indirectX | indirectY | relative =>
    simp only [operandAddress, Bus.run_bind, run_fetch, Bus.run_pure]
    rfl
  | absolute | absoluteX | absoluteY | indirect =>
    simp only [operandAddress, Bus.run_bind, Bus.run_pure, pc_fetchWord]
    rfl

theorem pc_operand (mode : AddressingMode) :
    ((s.operand mode).run m).1.2.pc = s.pc + UInt16.ofNat mode.operandSize := by
  simp only [operand, Bus.run_bind, Bus.run_pure, pc_operandAddress]

theorem pc_modify (mode : AddressingMode) (f : UInt8 → UInt8) :
    ((s.modify mode f).run m).1.2.pc = s.pc + UInt16.ofNat mode.operandSize := by
  simp only [modify, Bus.run_bind, Bus.run_pure, pc_operandAddress]

@[simp] theorem pc_push (v : UInt8) : ((s.push v).run m).1.pc = s.pc := by
  unfold push
  split
  · rfl
  · rfl

@[simp] theorem pc_pull : (s.pull.run m).1.2.pc = s.pc := by
  unfold pull
  split
  · rfl
  · rfl

end Processor

namespace Operation

/-- Whether an operation can stand with a mode: one that names no operand takes in no bytes, and a
branch takes in its offset. -/
def suits (mode : AddressingMode) : Operation → Bool
  | adjustRegister _ _ | returnFromCall | returnFromInterrupt | pushAccumulator | pushStatus
  | pullAccumulator | pullStatus | setFlag _ _ | transfer _ _ | readStackPointer
  | writeStackPointer | brk | nothing => mode = .single
  | branch _ _ => mode = .relative
  | _ => true

/-- Whether an operation goes on elsewhere than behind its operand bytes. -/
def diverts (s : Processor) : Operation → Bool
  | jump | call | returnFromCall | returnFromInterrupt | brk => true
  | branch f taken => s.flag f = taken
  | _ => false

end Operation

def Mnemonic.condition? : Mnemonic → Option (Flag × Bool)
  | bcc => some (.carry, false)
  | bcs => some (.carry, true)
  | bne => some (.zero, false)
  | beq => some (.zero, true)
  | bpl => some (.negative, false)
  | bmi => some (.negative, true)
  | bvc => some (.overflow, false)
  | bvs => some (.overflow, true)
  | _ => none

theorem Mnemonic.operation_eq_branch_iff {m : Mnemonic} {f : Flag} {taken : Bool} :
    m.operation = .branch f taken ↔ m.condition? = some (f, taken) := by
  cases m <;> simp [operation, condition?]

theorem Instruction.suits_opcodes :
    ∀ p ∈ opcodes, p.2.mnemonic.operation.suits p.2.mode = true := by
  decide +kernel

theorem Instruction.suits_of_decode {opcode : UInt8} {i : Instruction}
    (h : decode opcode = some i) : i.mnemonic.operation.suits i.mode = true :=
  suits_opcodes _ (mem_opcodes (decode_eq_some_iff.1 h))

namespace Processor

variable {s : Processor} {m : Memory} {mode : AddressingMode} {op : Operation}

theorem pc_shift (k : Shift) :
    ((s.shift mode k).run m).1.pc = s.pc + UInt16.ofNat mode.operandSize := by
  unfold shift
  by_cases hm : mode = .single
  · subst hm
    exact (UInt16.add_zero _).symm
  · simp only [if_neg hm, Bus.run_bind, Bus.run_pure, pc_setZeroNegative, pc_setFlag, pc_modify]

theorem run_branch (f : Flag) (taken : Bool) : (s.branch f taken).run m =
    (if s.flag f = taken then { s with pc := branchTarget (s.pc + 1) (m.read s.pc).1 }
      else { s with pc := s.pc + 1 }, (m.read s.pc).2) := rfl

theorem pc_perform (hs : op.suits mode = true) (hd : op.diverts s = false) :
    ((s.perform mode op).run m).1.pc = s.pc + UInt16.ofNat mode.operandSize := by
  cases op with
  | load r | add | subtract | combine k | compare r | bitTest =>
    simp only [perform, Bus.run_bind, Bus.run_pure, pc_load, pc_addWithCarry, pc_subtractWithCarry,
      pc_compare, pc_bitTest, pc_operand]
  | store r => simp only [perform, Bus.run_bind, Bus.run_pure, pc_operandAddress]
  | adjustMemory delta =>
    simp only [perform, Bus.run_bind, Bus.run_pure, pc_setZeroNegative, pc_modify]
  | shift k => exact pc_shift k
  | branch f taken =>
    obtain rfl : mode = .relative := of_decide_eq_true hs
    have hf : s.flag f ≠ taken := of_decide_eq_false hd
    rw [perform, run_branch, if_neg hf]
    rfl
  | jump | call | returnFromCall | returnFromInterrupt | brk => exact absurd hd nofun
  | adjustRegister r delta | pushAccumulator | pushStatus | pullAccumulator | pullStatus
  | setFlag f on | transfer source target | readStackPointer | writeStackPointer | nothing =>
    obtain rfl : mode = .single := of_decide_eq_true hs
    simp only [perform, Bus.run_bind, Bus.run_pure, pc_load, pc_setFlag, pc_push, pc_pull,
      setStatus]
    exact (UInt16.add_zero _).symm

theorem pc_step {i : Instruction} (hd : Instruction.decode (m.read s.pc).1 = some i)
    (hb : i.mnemonic ≠ .brk) :
    (s.step m).2.1.pc =
      ((({ s with fault := none, pc := s.pc + 1 } : Processor).perform i.mode
        i.mnemonic.operation).run (m.read s.pc).2).1.pc := by
  simp only [step, execute, Bus.run_bind, run_fetch, hd, if_neg hb, Bus.run_pure]

/-- Wherever an instruction stands, the processor goes on behind it unless the instruction
diverts it. -/
theorem pc_step_sequential {i : Instruction} (hd : Instruction.decode (m.read s.pc).1 = some i)
    (hs : i.mnemonic.operation.diverts s = false) :
    (s.step m).2.1.pc = s.pc + UInt16.ofNat i.mode.instructionSize := by
  have hb : i.mnemonic ≠ .brk := by
    rintro h
    rw [h] at hs
    exact absurd hs nofun
  rw [pc_step hd hb, pc_perform (Instruction.suits_of_decode hd)]
  · rw [UInt16.add_assoc, AddressingMode.instructionSize, UInt16.ofNat_add]
    rfl
  · cases ho : i.mnemonic.operation <;> rw [ho] at hs <;> exact hs

end Processor

end Micro6502
