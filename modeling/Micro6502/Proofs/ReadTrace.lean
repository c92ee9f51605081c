import Micro6502.Proofs.Halting
import Micro6502.Proofs.RegisterFile

namespace Micro6502

def addressesFrom (a : UInt16) : Nat → List UInt16
  | 0 => []
  | n + 1 => a :: addressesFrom (a + 1) n

def Memory.readAll (m : Memory) : List UInt16 → List UInt8 × Memory
  | [] => ([], m)
  | a :: as =>
    let (v, m) := m.read a
    let (vs, m) := m.readAll as
    (v :: vs, m)

/-- The byte that an immediate instruction works on is its operand byte, and an instruction without
operand bytes works on none. -/
def AddressingMode.hasTarget (mode : AddressingMode) : Bool := mode ≠ immediate && mode ≠ single

/-- Whether an instruction works on the byte at its effective address. Stores and jumps do not. -/
def Mnemonic.readsTarget : Mnemonic → Bool
  | lda | ldx | ldy | adc | sbc | and | ora | eor | cmp | cpx | cpy | bit | inc | dec | asl | lsr
  | rol | ror => true
  | _ => false

namespace Operation

def readsTarget : Operation → Bool
  | load _ | add | subtract | combine _ | compare _ | bitTest | adjustMemory _ | shift _ => true
  | _ => false

/-- Whether an operation can stand with a mode: one that works on a byte has a byte to work on,
except for the shifts of the accumulator, and no other one has an immediate operand. -/
def takes (mode : AddressingMode) : Operation → Bool
  | shift _ => true
  | op => if op.readsTarget then mode ≠ .single else mode ≠ .immediate

variable {op : Operation}

theorem pulls_of_readsTarget (h : op.readsTarget = true) : op.pulls = 0 := by
  cases op <;> first | rfl | cases h

theorem readsTarget_of_takes (h : op.takes .immediate = true) : op.readsTarget = true := by
  cases op <;> first | rfl | cases h

end Operation

theorem Mnemonic.readsTarget_operation (m : Mnemonic) :
    m.operation.readsTarget = m.readsTarget := by
  cases m <;> rfl

theorem Instruction.takes_opcodes :
    ∀ p ∈ opcodes, p.2.mnemonic.operation.takes p.2.mode = true := by
  decide +kernel

theorem Instruction.takes_of_decode {opcode : UInt8} {i : Instruction}
    (h : decode opcode = some i) : i.mnemonic.operation.takes i.mode = true :=
  takes_opcodes _ (mem_opcodes (decode_eq_some_iff.1 h))

namespace Processor

section Trace

variable (s : Processor)

/-- Where the effective address is stored, given the operand bytes. A pointer in page zero does not
leave it. -/
def pointerReads : AddressingMode → List UInt8 → List UInt16
  | .indirectX, [v] => [(v + s.x).toUInt16, (v + s.x + 1).toUInt16]
  | .indirectY, [v] => [v.toUInt16, (v + 1).toUInt16]
  | .indirect, [low, high] => addressesFrom (Word.ofBytes low high) 2
  | _, _ => []

def effectiveAddress : AddressingMode → List UInt8 → List UInt8 → UInt16
  | .zeroPage, [v], _ => v.toUInt16
  | .zeroPageX, [v], _ => (v + s.x).toUInt16
  | .zeroPageY, [v], _ => (v + s.y).toUInt16
  | .absolute, [low, high], _ => Word.ofBytes low high
  | .absoluteX, [low, high], _ => Word.ofBytes low high + s.x.toUInt16
  | .absoluteY, [low, high], _ => Word.ofBytes low high + s.y.toUInt16
  | .indirectX, _, [low, high] | .indirect, _, [low, high] => Word.ofBytes low high
  | .indirectY, _, [low, high] => Word.ofBytes low high + s.y.toUInt16
  | .relative, [v], _ => branchTarget (s.pc + 1) v
  | _, _, _ => s.pc

variable (m : Memory)

def addressReads (mode : AddressingMode) : List UInt16 :=
  let operandReads := addressesFrom s.pc mode.operandSize
  operandReads ++ s.pointerReads mode (m.readAll operandReads).1

def target (mode : AddressingMode) : UInt16 :=
  let (operand, m) := m.readAll (addressesFrom s.pc mode.operandSize)
  let (pointer, _) := m.readAll (s.pointerReads mode operand)
  s.effectiveAddress mode operand pointer

/-- The slots of the bytes that are pulled next, as far as the stack holds any. -/
def pullReads (top n : Nat) : List UInt16 :=
  (List.range' top (min n (0x100 - top))).map fun k ↦ slot (UInt16.ofNat k)

def instructionReads (i : Instruction) : List UInt16 :=
  s.addressReads m i.mode ++
    (if i.mnemonic.readsTarget && i.mode.hasTarget then [s.target m i.mode] else []) ++
    pullReads s.sp.toNat i.mnemonic.pulls

def readTrace : List UInt16 :=
  let (opcode, m) := m.read s.pc
  s.pc :: match Instruction.decode opcode with
    | none => []
    | some i => s.fetched.instructionReads m i

def performReads (mode : AddressingMode) (op : Operation) : List UInt16 :=
  s.addressReads m mode ++
    (if op.readsTarget && mode.hasTarget then [s.target m mode] else []) ++
    pullReads s.sp.toNat op.pulls

end Trace

variable {s : Processor} {m : Memory} {mode : AddressingMode} {op : Operation} {n : Nat}

theorem reads_operandAddress (h : mode ≠ .immediate) :
    (s.operandAddress mode).reads m = s.addressReads m mode := by
  cases mode with
  | immediate => exact absurd rfl h
  | _ => rfl

theorem run_operandAddress : ((s.operandAddress mode).run m).1.1 = s.target m mode := by
  cases mode <;> rfl

theorem reads_operand (h : mode ≠ .single) : (s.operand mode).reads m =
    s.addressReads m mode ++ if mode.hasTarget then [s.target m mode] else [] := by
  by_cases hm : mode = .immediate
  · subst hm
    rfl
  · have htarget : mode.hasTarget = true := by simp [AddressingMode.hasTarget, h, hm]
    simp only [operand, Bus.reads_bind, Bus.reads_get, Bus.reads_pure, reads_operandAddress hm,
      run_operandAddress, if_pos htarget, List.append_nil]

theorem reads_modify (h : mode ≠ .single) (f : UInt8 → UInt8) : (s.modify mode f).reads m =
    s.addressReads m mode ++ if mode.hasTarget then [s.target m mode] else [] := by
  rw [← reads_operand h]
  simp only [modify, operand, Bus.reads_bind, Bus.reads_put, Bus.reads_pure, List.append_nil]

theorem pullReads_zero : pullReads n 0 = [] := by
  rw [pullReads, Nat.zero_min]
  rfl

theorem pullReads_add (h : n ≤ 0x100) (j k : Nat) :
    pullReads n (j + k) = pullReads n j ++ pullReads (min (n + j) 0x100) k := by
  by_cases hj : n + j ≤ 0x100
  · have hleft : min j (0x100 - n) = j := by omega
    have hright : min (j + k) (0x100 - n) = j + min k (0x100 - (n + j)) := by omega
    rw [pullReads, pullReads, pullReads, hleft, hright, Nat.min_eq_left hj, ← List.map_append,
      List.range'_append_1]
  · -- The stack runs out among the first bytes, and there are no reads left for the others.
    have hright : min k (0x100 - min (n + j) 0x100) = 0 := by omega
    have hleft : min (j + k) (0x100 - n) = min j (0x100 - n) := by omega
    rw [pullReads, pullReads, pullReads, hleft, hright]
    exact (List.append_nil _).symm

theorem reads_push (v : UInt8) : (s.push v).reads m = [] := by
  unfold push
  split
  · rfl
  · rfl

theorem reads_pull (hs : s.sp ≤ emptyStack) : s.pull.reads m = pullReads s.sp.toNat 1 := by
  have hle := toNat_sp_le hs
  unfold pull
  by_cases h : emptyStack ≤ s.sp
  · have hfull : 0x100 ≤ s.sp.toNat := UInt16.le_iff_toNat_le.1 h
    have hnone : min 1 (0x100 - s.sp.toNat) = 0 := by omega
    rw [if_pos h, pullReads, hnone]
    rfl
  · have hlt : s.sp.toNat < 0x100 := UInt16.lt_iff_toNat_lt.1 (UInt16.not_le.1 h)
    have hone : min 1 (0x100 - s.sp.toNat) = 1 := by omega
    rw [if_neg h, pullReads, hone, List.range'_one, List.map_singleton, UInt16.ofNat_toNat]
    rfl

theorem reads_pullWord (hs : s.sp ≤ emptyStack) : s.pullWord.reads m = pullReads s.sp.toNat 2 := by
  have hsp : (s.pull.run m).1.2.sp.toNat = min (s.sp.toNat + 1) 0x100 := by
    rw [run_pull hs]
    exact toNat_sp_raised 1
  simp only [pullWord, Bus.reads_bind, Bus.reads_pure, List.append_nil]
  rw [reads_pull hs, reads_pull (sp_pull_le hs), hsp, ← pullReads_add (toNat_sp_le hs)]

theorem performReads_of_readsTarget (hr : op.readsTarget = true) : s.performReads m mode op =
    s.addressReads m mode ++ if mode.hasTarget then [s.target m mode] else [] := by
  rw [performReads, hr, Operation.pulls_of_readsTarget hr, pullReads_zero, List.append_nil,
    Bool.true_and]

theorem performReads_of_not_readsTarget (hr : op.readsTarget = false) :
    s.performReads m mode op = s.addressReads m mode ++ pullReads s.sp.toNat op.pulls := by
  rw [performReads, hr, Bool.false_and, if_neg Bool.false_ne_true, List.append_nil]

theorem performReads_eq_addressReads (hr : op.readsTarget = false) (hpulls : op.pulls = 0) :
    s.performReads m mode op = s.addressReads m mode := by
  rw [performReads_of_not_readsTarget hr, hpulls, pullReads_zero, List.append_nil]

theorem reads_perform (hs : s.sp ≤ emptyStack) (hp : op.suits mode = true)
    (ht : op.takes mode = true) : (s.perform mode op).reads m = s.performReads m mode op := by
  cases op with
  | load r | add | subtract | combine k | compare r | bitTest =>
    have hm : mode ≠ .single := of_decide_eq_true ht
    rw [performReads_of_readsTarget rfl, ← reads_operand hm]
    simp only [perform, Bus.reads_bind, Bus.reads_pure, List.append_nil]
  | adjustMemory delta =>
    have hm : mode ≠ .single := of_decide_eq_true ht
    rw [performReads_of_readsTarget rfl, ← reads_modify hm (· + delta)]
    simp only [perform, Bus.reads_bind, Bus.reads_pure, List.append_nil]
  | shift k =>
    rw [performReads_of_readsTarget rfl, perform, shift]
    by_cases hm : mode = .single
    · subst hm
      rfl
    · simp only [if_neg hm, Bus.reads_bind, Bus.reads_pure, List.append_nil, reads_modify hm]
  | store r | jump =>
    have hm : mode ≠ .immediate := of_decide_eq_true ht
    rw [performReads_eq_addressReads rfl rfl, ← reads_operandAddress hm]
    simp only [perform, Bus.reads_bind, Bus.reads_put, Bus.reads_pure, List.append_nil]
  | call =>
    have hm : mode ≠ .immediate := of_decide_eq_true ht
    rw [performReads_eq_addressReads rfl rfl, ← reads_operandAddress hm]
    simp only [perform, pushWord, Bus.reads_bind, reads_push, Bus.reads_pure, List.append_nil]
  | branch f taken =>
    obtain rfl : mode = .relative := of_decide_eq_true hp
    rfl
  | pullAccumulator | pullStatus =>
    obtain rfl : mode = .single := of_decide_eq_true hp
    rw [performReads_of_not_readsTarget rfl]
    simp only [perform, Bus.reads_bind, Bus.reads_pure, List.append_nil, reads_pull hs]
    rfl
  | returnFromCall =>
    obtain rfl : mode = .single := of_decide_eq_true hp
    rw [performReads_of_not_readsTarget rfl]
    simp only [perform, Bus.reads_bind, Bus.reads_pure, List.append_nil, reads_pullWord hs]
    rfl
  | returnFromInterrupt =>
    obtain rfl : mode = .single := of_decide_eq_true hp
    have hsp : ((s.pull.run m).1.2.setStatus (s.pull.run m).1.1).sp.toNat =
        min (s.sp.toNat + 1) 0x100 := by
      rw [run_pull hs]
      exact toNat_sp_raised 1
    have hle : ((s.pull.run m).1.2.setStatus (s.pull.run m).1.1).sp ≤ emptyStack := sp_pull_le hs
    rw [performReads_of_not_readsTarget rfl]
    simp only [perform, Bus.reads_bind, Bus.reads_pure, List.append_nil, reads_pull hs,
      reads_pullWord hle, hsp, ← pullReads_add (toNat_sp_le hs)]
    rfl
  | pushAccumulator | pushStatus =>
    obtain rfl : mode = .single := of_decide_eq_true hp
    rw [performReads_eq_addressReads rfl rfl, perform, reads_push]
    rfl
  | adjustRegister r delta | setFlag f on | transfer source target | readStackPointer
  | writeStackPointer | brk | nothing =>
    obtain rfl : mode = .single := of_decide_eq_true hp
    rw [performReads_eq_addressReads rfl rfl]
    rfl

theorem performReads_operation (i : Instruction) :
    s.performReads m i.mode i.mnemonic.operation = s.instructionReads m i := by
  rw [performReads, instructionReads, Mnemonic.readsTarget_operation, Mnemonic.pulls_operation]

theorem instructionReads_of_not_readsTarget {i : Instruction}
    (hr : i.mnemonic.readsTarget = false) (hpulls : i.mnemonic.pulls = 0) :
    s.instructionReads m i = s.addressReads m i.mode := by
  rw [instructionReads, hr, hpulls, pullReads_zero, Bool.false_and, if_neg Bool.false_ne_true,
    List.append_nil, List.append_nil]

theorem readTrace_of_none (hd : Instruction.decode (m.read s.pc).1 = none) :
    s.readTrace m = [s.pc] := by
  simp only [readTrace, hd]

theorem readTrace_of_some {i : Instruction} (hd : Instruction.decode (m.read s.pc).1 = some i) :
    s.readTrace m = s.pc :: s.fetched.instructionReads (m.read s.pc).2 i := by
  simp only [readTrace, hd]

theorem readTrace_of_brk (hd : Instruction.decode (m.read s.pc).1 = some ⟨.brk, .single⟩) :
    s.readTrace m = [s.pc] := by
  rw [readTrace_of_some hd, instructionReads_of_not_readsTarget rfl rfl]
  rfl

theorem reads_execute (hs : s.sp ≤ emptyStack) : s.execute.reads m = s.readTrace m := by
  cases hd : Instruction.decode (m.read s.pc).1 with
  | none =>
    rw [readTrace_of_none hd]
    simp only [execute, Bus.reads_bind, run_fetch, hd, Bus.reads_pure, List.append_nil]
    rfl
  | some i =>
    by_cases hb : i.mnemonic = .brk
    · obtain rfl := Instruction.eq_brk hd hb
      rw [readTrace_of_brk hd]
      simp only [execute, Bus.reads_bind, run_fetch, hd, if_true, Bus.reads_pure, List.append_nil]
      rfl
    · have hperform := reads_perform (s := s.fetched) (m := (m.read s.pc).2) hs
        (Instruction.suits_of_decode hd) (Instruction.takes_of_decode hd)
      rw [readTrace_of_some hd, ← performReads_operation, ← hperform, Bus.reads,
        accesses_execute hd hb]
      rfl

variable (s m) in
/-- An instruction reads what its opcode and its mode ask for, in this order, and nothing else. -/
structure ReadsInOrder : Prop where
  reads : s.execute.reads m = s.readTrace m
  consulted : (s.step m).2.2.readHook = m.readHook.map (·.consulted (s.readTrace m))
  stopped : Instruction.decode (m.read s.pc).1 = none ∨
      Instruction.decode (m.read s.pc).1 = some ⟨.brk, .single⟩ → s.readTrace m = [s.pc]
  immediate : ∀ i, Instruction.decode (m.read s.pc).1 = some i → i.mode = .immediate →
    s.readTrace m = [s.pc, s.pc + 1] ∧ ((s.fetched.operand i.mode).run (m.read s.pc).2).1.1 =
      ((m.read s.pc).2.read (s.pc + 1)).1
  untouched : ∀ i, Instruction.decode (m.read s.pc).1 = some i →
    i.mnemonic ∈ [Mnemonic.sta, .stx, .sty, .jmp, .jsr] →
    s.readTrace m = s.pc :: s.fetched.addressReads (m.read s.pc).2 i.mode

theorem reads_in_order (hs : s.sp ≤ emptyStack) : s.ReadsInOrder m := by
  have hreads : s.execute.reads m = s.readTrace m := reads_execute hs
  constructor
  case reads => exact hreads
  case consulted =>
    rw [memory_step, Bus.readHook_run, hreads]
  case stopped =>
    rintro (hd | hd)
    · exact readTrace_of_none hd
    · exact readTrace_of_brk hd
  case immediate =>
    intro i hd hm
    have hreads : s.fetched.instructionReads (m.read s.pc).2 i = [s.pc + 1] := by
      have ht := Instruction.takes_of_decode hd
      rw [hm] at ht
      rw [← performReads_operation,
        performReads_of_readsTarget (Operation.readsTarget_of_takes ht), hm]
      rfl
    rw [readTrace_of_some hd, hreads, hm]
    exact ⟨rfl, rfl⟩
  case untouched =>
    intro i hd hi
    have hr : i.mnemonic.readsTarget = false ∧ i.mnemonic.pulls = 0 := by
      have hall : ∀ n ∈ [Mnemonic.sta, .stx, .sty, .jmp, .jsr],
          n.readsTarget = false ∧ n.pulls = 0 := by decide
      exact hall _ hi
    rw [readTrace_of_some hd, instructionReads_of_not_readsTarget hr.1 hr.2]

theorem reads_in_order_random :
    let s := initial 0x0600
    let m := Memory.blank.hookReads ⟨0x0000, 0xFFFF⟩ (.random fun n ↦
      [0xB1, 0xFF, 0x34, 0x12].getD n 0)
    s.sp ≤ emptyStack ∧ s.ReadsInOrder m ∧
      s.readTrace m = [0x0600, 0x0601, 0x00FF, 0x0000, 0x1234] := by
  intro s m
  have hs : s.sp ≤ emptyStack := by decide
  exact ⟨hs, reads_in_order hs, by decide +kernel⟩

end Processor

end Micro6502
