import Micro6502.Proofs.StackTransfer

namespace Micro6502

theorem Mnemonic.ne_brk_of_usesStack {n : Mnemonic} (h : n.operation.usesStack = true) :
    n ≠ .brk := by
  rintro rfl
  cases h

theorem Mnemonic.operation_ne_writeStackPointer {n : Mnemonic} (h : n ≠ .txs) :
    n.operation ≠ .writeStackPointer := by
  cases n with
  | txs => exact absurd rfl h
  | _ => exact nofun

theorem Instruction.mode_opcodes_call :
    ∀ p ∈ opcodes, p.2.mnemonic.operation = .call → p.2.mode = .absolute := by
  decide +kernel

theorem Instruction.mode_of_call {opcode : UInt8} {i : Instruction} (h : decode opcode = some i) :
    i.mnemonic.operation = .call → i.mode = .absolute :=
  mode_opcodes_call _ (mem_opcodes (decode_eq_some_iff.1 h))

namespace Processor

variable (s : Processor) (m : Memory)

def fetched : Processor := { s with pc := s.pc + 1, fault := none }

variable {s m} {i : Instruction} {mode : AddressingMode} {op : Operation}

theorem step_of_none (hd : Instruction.decode (m.read s.pc).1 = none) :
    s.step m = (.halted (.unknownOpcode (m.read s.pc).1 s.pc), s.fetched, (m.read s.pc).2) := by
  simp only [step, execute, Bus.run_bind, run_fetch, hd, Bus.run_pure]
  rfl

theorem step_of_brk (hd : Instruction.decode (m.read s.pc).1 = some i) (hb : i.mnemonic = .brk) :
    s.step m = (.halted (.brk s.pc), s.fetched, (m.read s.pc).2) := by
  simp only [step, execute, Bus.run_bind, run_fetch, hd, if_pos hb, Bus.run_pure]
  rfl

theorem step_of_some (hd : Instruction.decode (m.read s.pc).1 = some i) (hb : i.mnemonic ≠ .brk) :
    s.step m =
      let (t, m') := (s.fetched.perform i.mode i.mnemonic.operation).run (m.read s.pc).2
      (t.outcome, { t with fault := none }, m') := by
  simp only [step, execute, Bus.run_bind, run_fetch, hd, if_neg hb, Bus.run_pure]
  rfl

theorem memory_step (s : Processor) (m : Memory) : (s.step m).2.2 = (s.execute.run m).2 := by
  unfold step
  generalize s.execute.run m = r
  rfl

theorem state_operandAddress : ((s.operandAddress mode).run m).1.2 =
    { s with pc := s.pc + UInt16.ofNat mode.operandSize } := by
  rw [← pc_operandAddress s m]
  cases mode <;> rfl

theorem state_operand : ((s.operand mode).run m).1.2 =
    { s with pc := s.pc + UInt16.ofNat mode.operandSize } := by
  simp only [operand, Bus.run_bind, Bus.run_pure, state_operandAddress]

theorem state_modify (f : UInt8 → UInt8) : ((s.modify mode f).run m).1.2 =
    { s with pc := s.pc + UInt16.ofNat mode.operandSize } := by
  simp only [modify, Bus.run_bind, Bus.run_pure, state_operandAddress]

/-- What the stack instructions work on besides memory. -/
def stackView (s : Processor) : UInt16 × Option StackFault := (s.sp, s.fault)

@[simp] theorem stackView_pc (v : UInt16) :
    ({ s with pc := v } : Processor).stackView = s.stackView := rfl

@[simp] theorem stackView_setFlag (f : Flag) (on : Bool) :
    (s.setFlag f on).stackView = s.stackView := rfl

@[simp] theorem stackView_setZeroNegative (v : UInt8) :
    (s.setZeroNegative v).stackView = s.stackView := rfl

@[simp] theorem stackView_load (r : Register) (v : UInt8) :
    (s.load r v).stackView = s.stackView := by
  cases r <;> rfl

@[simp] theorem stackView_setSum (r : Sum) : (s.setSum r).stackView = s.stackView := rfl

@[simp] theorem stackView_compare (r v : UInt8) : (s.compare r v).stackView = s.stackView := rfl

@[simp] theorem stackView_bitTest (v : UInt8) : (s.bitTest v).stackView = s.stackView := rfl

theorem stackView_shift (k : Shift) : ((s.shift mode k).run m).1.stackView = s.stackView := by
  unfold shift
  by_cases hm : mode = .single
  · rw [if_pos hm]
    rfl
  · simp only [if_neg hm, Bus.run_bind, Bus.run_pure, stackView_setZeroNegative, stackView_setFlag,
      state_modify, stackView_pc]

/-- Operations that neither push nor pull leave the stack pointer alone, except for the one that
loads it. -/
theorem stackView_perform (hu : op.usesStack = false) (hw : op ≠ .writeStackPointer) :
    ((s.perform mode op).run m).1.stackView = s.stackView := by
  cases op with
  | load r | add | subtract | combine k | compare r | bitTest =>
    simp only [perform, Bus.run_bind, Bus.run_pure, state_operand, addWithCarry, subtractWithCarry,
      stackView_load, stackView_setSum, stackView_compare, stackView_bitTest, stackView_pc]
  | store r | jump =>
    simp only [perform, Bus.run_bind, Bus.run_pure, state_operandAddress, stackView_pc]
  | adjustMemory delta =>
    simp only [perform, Bus.run_bind, Bus.run_pure, state_modify, stackView_setZeroNegative,
      stackView_pc]
  | shift k => exact stackView_shift k
  | branch f taken =>
    rw [perform, run_branch]
    split
    · rfl
    · rfl
  | adjustRegister r delta | transfer source target => exact stackView_load _ _
  | readStackPointer | setFlag f on | brk | nothing => rfl
  | writeStackPointer => exact absurd rfl hw
  | _ => cases hu

end Processor

end Micro6502
