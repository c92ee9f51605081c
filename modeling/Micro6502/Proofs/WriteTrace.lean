import Micro6502.Proofs.ReadTrace
import Micro6502.Proofs.Watcher

namespace Micro6502

namespace Operation

/-- Whether an operation writes to its effective address. The shifts of the accumulator do not,
although they share their operation with those of memory. -/
def writesTarget : Operation → Bool
  | store _ | adjustMemory _ | shift _ => true
  | _ => false

end Operation

theorem Instruction.mode_opcodes_writesTarget :
    ∀ p ∈ opcodes, p.2.mnemonic.operation.writesTarget = true → p.2.mode ≠ .immediate := by
  decide +kernel

theorem Instruction.mode_of_writesTarget {opcode : UInt8} {i : Instruction}
    (h : decode opcode = some i) :
    i.mnemonic.operation.writesTarget = true → i.mode ≠ .immediate :=
  mode_opcodes_writesTarget _ (mem_opcodes (decode_eq_some_iff.1 h))

namespace Processor

def pushWrites : List UInt8 → Nat → List Write
  | v :: vs, n + 1 => (slot (UInt16.ofNat n), v) :: pushWrites vs n
  | _, _ => []

section Trace

variable (s : Processor) (m : Memory)

/-- The byte at the effective address, as it is read behind the operand bytes and the pointer. -/
def targetByte (mode : AddressingMode) : UInt8 :=
  ((m.readAll (s.addressReads m mode)).2.read (s.target m mode)).1

/-- The writes of an instruction behind its opcode. A call pushes the address of its last byte. -/
def instructionWrites (i : Instruction) : List Write :=
  let a := s.target m i.mode
  let v := s.targetByte m i.mode
  let shifted (k : Shift) : List Write :=
    if i.mode = .single then [] else [(a, (k.apply v (s.flag .carry)).1)]
  match i.mnemonic with
  | .sta => [(a, s.a)]
  | .stx => [(a, s.x)]
  | .sty => [(a, s.y)]
  | .inc => [(a, v + 1)]
  | .dec => [(a, v - 1)]
  | .asl => shifted .asl
  | .lsr => shifted .lsr
  | .rol => shifted .rol
  | .ror => shifted .ror
  | .pha => pushWrites [s.a] s.sp.toNat
  | .php => pushWrites [s.status] s.sp.toNat
  | .jsr => pushWrites [Word.high (s.pc + 1), Word.low (s.pc + 1)] s.sp.toNat
  | _ => []

def writeTrace : List Write :=
  let (opcode, m) := m.read s.pc
  match Instruction.decode opcode with
  | none => []
  | some i => s.fetched.instructionWrites m i

end Trace

variable {s : Processor} {m : Memory} {mode : AddressingMode} {op : Operation}

theorem writes_operandAddress : (s.operandAddress mode).writes m = [] := by
  cases mode <;> rfl

theorem writes_operand : (s.operand mode).writes m = [] := by
  simp only [operand, Bus.writes_bind, Bus.writes_get, Bus.writes_pure, writes_operandAddress,
    List.append_nil]

theorem memory_operandAddress (h : mode ≠ .immediate) :
    ((s.operandAddress mode).run m).2 = (m.readAll (s.addressReads m mode)).2 := by
  cases mode with
  | immediate => exact absurd rfl h
  | _ => rfl

theorem writes_modify (h : mode ≠ .immediate) (f : UInt8 → UInt8) :
    (s.modify mode f).writes m = [(s.target m mode, f (s.targetByte m mode))] := by
  simp only [modify, Bus.writes_bind, Bus.writes_get, Bus.writes_put, Bus.writes_pure,
    writes_operandAddress, run_operandAddress, memory_operandAddress h, Bus.run_get,
    List.append_nil, List.nil_append]
  rfl

theorem writes_push (v : UInt8) : (s.push v).writes m = pushWrites [v] s.sp.toNat := by
  unfold push
  by_cases h : s.sp = 0
  · rw [if_pos h, h]
    rfl
  · obtain ⟨n, hn⟩ := exists_toNat_sp h
    have hsp : s.sp - 1 = UInt16.ofNat n := sp_sub hn
    rw [if_neg h, hn, pushWrites, ← hsp]
    rfl

theorem pushWrites_cons (v : UInt8) (vs : List UInt8) (n : Nat) :
    pushWrites (v :: vs) n = pushWrites [v] n ++ pushWrites vs (n - 1) := by
  cases n with
  | zero => cases vs <;> rfl
  | succ n => rfl

theorem writes_pushWord (w : UInt16) :
    (s.pushWord w).writes m = pushWrites [Word.high w, Word.low w] s.sp.toNat := by
  have hsp : ((s.push (Word.high w)).run m).1.sp.toNat = s.sp.toNat - 1 := by
    rw [run_push]
    exact toNat_sp_lowered 1
  rw [pushWord, Bus.writes_bind, writes_push, writes_push, hsp, ← pushWrites_cons]

theorem writes_pull : s.pull.writes m = [] := by
  unfold pull
  split
  · rfl
  · rfl

theorem writes_pullWord : s.pullWord.writes m = [] := by
  simp only [pullWord, Bus.writes_bind, Bus.writes_pure, writes_pull, List.append_nil]

theorem writes_perform_eq_nil (ht : op.writesTarget = false) (hp : op.pushes = 0) :
    (s.perform mode op).writes m = [] := by
  cases op with
  | load r | add | subtract | combine k | compare r | bitTest =>
    simp only [perform, Bus.writes_bind, Bus.writes_pure, writes_operand, List.append_nil]
  | jump =>
    simp only [perform, Bus.writes_bind, Bus.writes_pure, writes_operandAddress, List.append_nil]
  | returnFromCall | returnFromInterrupt | pullAccumulator | pullStatus =>
    simp only [perform, Bus.writes_bind, Bus.writes_pure, writes_pull, writes_pullWord,
      List.append_nil]
  | branch f taken | adjustRegister r delta | setFlag f on | transfer source target
  | readStackPointer | writeStackPointer | brk | nothing => rfl
  | store r | adjustMemory delta | shift k => cases ht
  | call | pushAccumulator | pushStatus => cases hp

theorem writes_store (r : Register) :
    (s.perform mode (.store r)).writes m = [(s.target m mode, s.register r)] := by
  have hr : ((s.operandAddress mode).run m).1.2.register r = s.register r := by
    rw [state_operandAddress]
    cases r <;> rfl
  simp only [perform, Bus.writes_bind, Bus.writes_put, Bus.writes_pure, writes_operandAddress,
    run_operandAddress, hr, List.nil_append, List.append_nil]

theorem writes_adjustMemory (h : mode ≠ .immediate) (delta : UInt8) :
    (s.perform mode (.adjustMemory delta)).writes m =
      [(s.target m mode, s.targetByte m mode + delta)] := by
  simp only [perform, Bus.writes_bind, Bus.writes_pure, writes_modify h, List.append_nil]

theorem writes_shift (h : mode ≠ .immediate) (k : Shift) :
    (s.perform mode (.shift k)).writes m = if mode = .single then []
      else [(s.target m mode, (k.apply (s.targetByte m mode) (s.flag .carry)).1)] := by
  rw [perform, shift]
  by_cases hm : mode = .single
  · rw [if_pos hm, if_pos hm]
    rfl
  · simp only [if_neg hm, Bus.writes_bind, Bus.writes_pure, writes_modify h, List.append_nil]

theorem writes_call :
    (s.perform .absolute .call).writes m =
      pushWrites [Word.high (s.pc + 1), Word.low (s.pc + 1)] s.sp.toNat := by
  have hpc : s.pc + UInt16.ofNat AddressingMode.absolute.operandSize - 1 = s.pc + 1 := by
    rw [UInt16.sub_eq_add_neg, UInt16.add_assoc]
    rfl
  simp only [perform, Bus.writes_bind, Bus.writes_pure, writes_operandAddress, writes_pushWord,
    state_operandAddress, hpc, List.nil_append, List.append_nil]

theorem writes_perform {i : Instruction} (hm : i.mnemonic.operation = .call → i.mode = .absolute)
    (ht : i.mnemonic.operation.writesTarget = true → i.mode ≠ .immediate) :
    (s.perform i.mode i.mnemonic.operation).writes m = s.instructionWrites m i := by
  obtain ⟨mnemonic, mode⟩ := i
  cases mnemonic with
  | sta | stx | sty => exact writes_store _
  | inc => exact writes_adjustMemory (ht rfl) 1
  | dec =>
    refine (writes_adjustMemory (ht rfl) 0xFF).trans ?_
    rw [instructionWrites, UInt8.sub_eq_add_neg]
    rfl
  | asl | lsr | rol | ror => exact writes_shift (ht rfl) _
  | pha | php => exact writes_push _
  | jsr =>
    obtain rfl : mode = .absolute := hm rfl
    exact writes_call
  | _ => exact writes_perform_eq_nil rfl rfl

theorem writeTrace_of_none (hd : Instruction.decode (m.read s.pc).1 = none) :
    s.writeTrace m = [] := by
  unfold writeTrace
  simp only [hd]

theorem writeTrace_of_some {i : Instruction} (hd : Instruction.decode (m.read s.pc).1 = some i) :
    s.writeTrace m = s.fetched.instructionWrites (m.read s.pc).2 i := by
  unfold writeTrace
  simp only [hd]

theorem writes_execute : s.execute.writes m = s.writeTrace m := by
  cases hd : Instruction.decode (m.read s.pc).1 with
  | none =>
    rw [writeTrace_of_none hd]
    simp only [execute, Bus.writes_bind, run_fetch, hd, Bus.writes_pure, List.append_nil]
    rfl
  | some i =>
    by_cases hb : i.mnemonic = .brk
    · obtain rfl := Instruction.eq_brk hd hb
      rw [writeTrace_of_some hd]
      simp only [execute, Bus.writes_bind, run_fetch, hd, if_true, Bus.writes_pure, List.append_nil]
      rfl
    · have hperform := writes_perform (s := s.fetched) (m := (m.read s.pc).2)
        (Instruction.mode_of_call hd) (Instruction.mode_of_writesTarget hd)
      rw [writeTrace_of_some hd, ← hperform, Bus.writes, accesses_execute hd hb]
      rfl

variable (s m) in
/-- An instruction writes what its mnemonic and its mode ask for, in this order, and nothing else,
and the watcher is told of each of these bytes that is in its range, once it is stored. -/
structure WritesInOrder : Prop where
  writes : s.execute.writes m = s.writeTrace m
  stored : ∀ a, (s.step m).2.2.peek a = (latest? (s.writeTrace m) a).getD (m.peek a)
  told : (s.step m).2.2.told = m.told ++ (s.writeTrace m).filterMap m.callOf
  observed : (s.execute.observe m).1 = s.execute.run m
  notices : (s.execute.observe m).2.map Prod.snd =
    (s.writeTrace m).filter fun w ↦ (m.callOf w).isSome
  stored_first : ∀ n ∈ (s.execute.observe m).2, n.1.peek n.2.1 = n.2.2

-- A call that finds room for the first of its two bytes only.
example :
    let m := Memory.blank.hookReads ⟨0, 0xFFFF⟩ (.host fun _ ↦ 0x20)
    let s : Processor := { Processor.initial 0x0600 with sp := 1 }
    s.writeTrace m = [(0x0100, 0x06)] := by
  decide +kernel

end Processor

end Micro6502
