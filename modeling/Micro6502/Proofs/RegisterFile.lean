import Micro6502.Proofs.Access
import Micro6502.Proofs.InstructionStep

namespace Micro6502

namespace Status

theorem or_and_self (p mask : UInt8) : (p ||| mask) &&& mask = mask := by
  apply UInt8.toBitVec_inj.1
  ext i
  simp only [UInt8.toBitVec_and, UInt8.toBitVec_or, BitVec.getElem_and, BitVec.getElem_or]
  cases p.toBitVec[i] <;> cases mask.toBitVec[i] <;> rfl

theorem has_ofByte (b : UInt8) : (ofByte b).has Flag.unused.mask = true :=
  beq_iff_eq.2 (or_and_self _ _)

theorem has_assign (p : Status) (mask : UInt8) (on : Bool) :
    (p.assign mask on).has Flag.unused.mask = true :=
  beq_iff_eq.2 (or_and_self _ _)

end Status

namespace Processor

/-- What can be done to a processor. Whoever executes an instruction chooses the memory for it. -/
inductive Action where
  | execute (m : Memory)
  | setRegister (r : Register) (v : UInt8)
  | setProgramCounter (v : UInt16)
  | setStackPointer (v : UInt16)
  | setStatus (v : UInt8)
  | assign (mask : UInt8) (on : Bool)
  | reset (origin : UInt16)

def act (s : Processor) : Action → Processor
  | .execute m => (s.step m).2.1
  | .setRegister r v => s.setRegister r v
  | .setProgramCounter v => { s with pc := v }
  | .setStackPointer v => s.setStackPointer v
  | .setStatus v => s.setStatus v
  | .assign mask on => { s with status := s.status.assign mask on }
  | .reset origin => initial origin

def after (s : Processor) (as : List Action) : Processor := as.foldl act s

structure WellFormed (s : Processor) : Prop where
  sp_le : s.sp ≤ emptyStack
  unused_on : s.flag .unused = true
  fault_none : s.fault = none

variable {s : Processor} {m : Memory} {mode : AddressingMode} {op : Operation}

theorem unused_setFlag (f : Flag) (on : Bool) : (s.setFlag f on).flag .unused = true :=
  Status.has_assign _ _ _

theorem unused_setStatus (v : UInt8) : (s.setStatus v).flag .unused = true := Status.has_ofByte v

theorem unused_setZeroNegative (v : UInt8) : (s.setZeroNegative v).flag .unused = true :=
  unused_setFlag _ _

theorem unused_load (r : Register) (v : UInt8) : (s.load r v).flag .unused = true :=
  unused_setZeroNegative v

theorem unused_shift (k : Shift) : ((s.shift mode k).run m).1.flag .unused = true := by
  unfold shift
  split
  · exact unused_setZeroNegative _
  · simp only [Bus.run_bind, Bus.run_pure, unused_setZeroNegative]

theorem unused_transfer (h : s.flag .unused = true) : (s.transfer m op).1.flag .unused = true := by
  cases op with
  | pullAccumulator => exact unused_load _ _
  | pullStatus | returnFromInterrupt => exact Status.has_ofByte _
  | _ => exact h

/-- Operations that set flags turn bit 5 on, and the others leave the status as it is. -/
theorem unused_perform (hs : s.sp ≤ emptyStack) (hm : op = .call → mode = .absolute)
    (h : s.flag .unused = true) : ((s.perform mode op).run m).1.flag .unused = true := by
  cases hu : op.usesStack with
  | true =>
    rw [run_perform_of_usesStack hs hm hu]
    exact unused_transfer h
  | false =>
    cases op with
    | load r | add | subtract | combine k | compare r | bitTest | adjustMemory delta =>
      simp only [perform, Bus.run_bind, Bus.run_pure]
      exact unused_setFlag _ _
    | store r | jump =>
      simp only [perform, Bus.run_bind, Bus.run_pure, state_operandAddress]
      exact h
    | shift k => exact unused_shift k
    | branch f taken =>
      rw [perform, run_branch]
      split
      · exact h
      · exact h
    | adjustRegister r delta | transfer source target => exact unused_load _ _
    | readStackPointer | setFlag f on => exact unused_setFlag _ _
    | writeStackPointer | brk | nothing => exact h
    | _ => cases hu

theorem sp_transfer (hs : s.sp ≤ emptyStack) (hu : op.usesStack = true) :
    (s.transfer m op).1.sp.toNat = min (s.sp.toNat - op.pushes + op.pulls) 0x100 := by
  have hle := toNat_sp_le hs
  cases op with
  | pushAccumulator | pushStatus | call =>
    refine (toNat_sp_lowered _).trans ?_
    simp only [Operation.pushes, Operation.pulls]
    omega
  | pullAccumulator | pullStatus | returnFromCall | returnFromInterrupt => exact toNat_sp_raised _
  | _ => cases hu

theorem sp_perform_le (hs : s.sp ≤ emptyStack) (hm : op = .call → mode = .absolute) :
    ((s.perform mode op).run m).1.sp ≤ emptyStack := by
  cases hu : op.usesStack with
  | true =>
    rw [run_perform_of_usesStack hs hm hu, UInt16.le_iff_toNat_le]
    refine Nat.le_trans (Nat.le_of_eq (sp_transfer hs hu)) ?_
    exact Nat.min_le_right _ _
  | false =>
    by_cases hw : op = .writeStackPointer
    · subst hw
      have hx := s.x.toNat_lt
      refine UInt16.le_iff_toNat_le.2 ?_
      change s.x.toUInt16.toNat ≤ 0x100
      rw [UInt8.toNat_toUInt16]
      omega
    · have hsp : ((s.perform mode op).run m).1.sp = s.sp :=
        congrArg Prod.fst (stackView_perform hu hw)
      rw [hsp]
      exact hs

theorem wellFormed_initial (origin : UInt16) : (initial origin).WellFormed where
  sp_le := UInt16.le_refl _
  unused_on := beq_iff_eq.2 UInt8.and_self
  fault_none := rfl

theorem wellFormed_step (h : s.WellFormed) : (s.step m).2.1.WellFormed := by
  have hfetched : s.fetched.WellFormed := ⟨h.sp_le, h.unused_on, rfl⟩
  cases hd : Instruction.decode (m.read s.pc).1 with
  | none =>
    rw [step_of_none hd]
    exact hfetched
  | some i =>
    by_cases hb : i.mnemonic = .brk
    · rw [step_of_brk hd hb]
      exact hfetched
    · have hm := Instruction.mode_of_call hd
      rw [step_of_some hd hb]
      exact ⟨sp_perform_le hfetched.sp_le hm,
        unused_perform hfetched.sp_le hm hfetched.unused_on, rfl⟩

theorem wellFormed_act (h : s.WellFormed) (a : Action) : (s.act a).WellFormed := by
  cases a with
  | execute m => exact wellFormed_step h
  | setRegister r v => cases r <;> exact ⟨h.sp_le, h.unused_on, h.fault_none⟩
  | setProgramCounter v => exact ⟨h.sp_le, h.unused_on, h.fault_none⟩
  | setStackPointer v => exact ⟨Std.min_le_right, h.unused_on, h.fault_none⟩
  | setStatus v => exact ⟨h.sp_le, unused_setStatus v, h.fault_none⟩
  | assign mask on => exact ⟨h.sp_le, Status.has_assign _ _ _, h.fault_none⟩
  | reset origin => exact wellFormed_initial origin

theorem wellFormed_after (h : s.WellFormed) (as : List Action) : (s.after as).WellFormed := by
  induction as generalizing s with
  | nil => exact h
  | cons a as ih => exact ih (wellFormed_act h a)

def InStackPage (a : UInt16) : Prop := 0x0100 ≤ a ∧ a ≤ 0x01FF

theorem toNat_slot {n : UInt16} (h : n < emptyStack) : (slot n).toNat = 0x100 + n.toNat := by
  have hn : n.toNat < 0x100 := UInt16.lt_iff_toNat_lt.1 h
  rw [slot, UInt16.toNat_add]
  exact Nat.mod_eq_of_lt (Nat.lt_trans (Nat.add_lt_add_left hn _) (by decide))

theorem inStackPage_slot {n : UInt16} (h : n < emptyStack) : InStackPage (slot n) := by
  have hn : n.toNat < 0x100 := UInt16.lt_iff_toNat_lt.1 h
  constructor
  · rw [UInt16.le_iff_toNat_le, toNat_slot h]
    exact Nat.le_add_right _ _
  · rw [UInt16.le_iff_toNat_le, toNat_slot h]
    exact Nat.add_le_add_left (Nat.le_of_lt_succ hn) _

theorem inStackPage_push (hs : s.sp ≤ emptyStack) (v : UInt8) :
    ∀ x ∈ (s.push v).accesses m, InStackPage x.address := by
  unfold push
  by_cases h : s.sp = 0
  · rw [if_pos h]
    exact List.forall_mem_nil _
  · have hle := toNat_sp_le hs
    have hpos : 0 < s.sp.toNat := Nat.pos_of_ne_zero fun h0 ↦ h (UInt16.toNat_inj.1 h0)
    have hone : 1 ≤ s.sp := UInt16.le_iff_toNat_le.2 hpos
    have hlt : s.sp - 1 < emptyStack := by
      rw [UInt16.lt_iff_toNat_lt, UInt16.toNat_sub_of_le _ _ hone]
      exact Nat.sub_one_lt_of_le hpos hle
    rw [if_neg h]
    exact List.forall_mem_singleton.2 (inStackPage_slot hlt)

theorem inStackPage_pull : ∀ x ∈ s.pull.accesses m, InStackPage x.address := by
  unfold pull
  by_cases h : emptyStack ≤ s.sp
  · rw [if_pos h]
    exact List.forall_mem_nil _
  · rw [if_neg h]
    exact List.forall_mem_singleton.2 (inStackPage_slot (UInt16.not_le.1 h))

theorem sp_push_le (hs : s.sp ≤ emptyStack) (v : UInt8) :
    ((s.push v).run m).1.sp ≤ emptyStack := by
  rw [run_push, UInt16.le_iff_toNat_le]
  refine Nat.le_trans (Nat.le_of_eq (toNat_sp_lowered 1)) ?_
  exact Nat.le_trans (Nat.sub_le _ _) (toNat_sp_le hs)

theorem sp_pull_le (hs : s.sp ≤ emptyStack) : (s.pull.run m).1.2.sp ≤ emptyStack := by
  rw [run_pull hs]
  exact raised_sp_le 1

theorem inStackPage_pushWord (hs : s.sp ≤ emptyStack) (w : UInt16) :
    ∀ x ∈ (s.pushWord w).accesses m, InStackPage x.address := by
  rw [pushWord, Bus.accesses_bind]
  exact List.forall_mem_append.2 ⟨inStackPage_push hs _, inStackPage_push (sp_push_le hs _) _⟩

theorem inStackPage_pullWord : ∀ x ∈ s.pullWord.accesses m, InStackPage x.address := by
  simp only [pullWord, Bus.accesses_bind, Bus.accesses_pure, List.append_nil]
  exact List.forall_mem_append.2 ⟨inStackPage_pull, inStackPage_pull⟩

theorem accesses_perform (hs : s.sp ≤ emptyStack) (hm : op = .call → mode = .absolute)
    (hp : op.suits mode = true) (hu : op.usesStack = true) :
    ∃ stack, (s.perform mode op).accesses m = Access.fetches s.pc mode.operandSize ++ stack ∧
      ∀ x ∈ stack, InStackPage x.address := by
  cases op with
  | pushAccumulator | pushStatus =>
    obtain rfl : mode = .single := of_decide_eq_true hp
    exact ⟨_, rfl, inStackPage_push hs _⟩
  | call =>
    obtain rfl := hm rfl
    let t := ((s.operandAddress .absolute).run m).1.2
    have ht : t.sp ≤ emptyStack := by
      change ((s.operandAddress .absolute).run m).1.2.sp ≤ emptyStack
      rw [state_operandAddress]
      exact hs
    refine ⟨(t.pushWord (t.pc - 1)).accesses ((s.operandAddress .absolute).run m).2, ?_,
      inStackPage_pushWord ht _⟩
    simp only [perform, Bus.accesses_bind, Bus.accesses_pure, List.append_nil]
    rfl
  | pullAccumulator | pullStatus =>
    obtain rfl : mode = .single := of_decide_eq_true hp
    refine ⟨s.pull.accesses m, ?_, inStackPage_pull⟩
    simp only [perform, Bus.accesses_bind, Bus.accesses_pure, List.append_nil]
    rfl
  | returnFromCall =>
    obtain rfl : mode = .single := of_decide_eq_true hp
    refine ⟨s.pullWord.accesses m, ?_, inStackPage_pullWord⟩
    simp only [perform, Bus.accesses_bind, Bus.accesses_pure, List.append_nil]
    rfl
  | returnFromInterrupt =>
    obtain rfl : mode = .single := of_decide_eq_true hp
    let t := (s.pull.run m).1
    refine ⟨s.pull.accesses m ++ (t.2.setStatus t.1).pullWord.accesses (s.pull.run m).2, ?_,
      List.forall_mem_append.2 ⟨inStackPage_pull, inStackPage_pullWord⟩⟩
    simp only [perform, Bus.accesses_bind, Bus.accesses_pure, List.append_nil]
    rfl
  | _ => cases hu

variable {i : Instruction}

theorem accesses_execute (hd : Instruction.decode (m.read s.pc).1 = some i)
    (hb : i.mnemonic ≠ .brk) : s.execute.accesses m =
      .read s.pc :: (s.fetched.perform i.mode i.mnemonic.operation).accesses (m.read s.pc).2 := by
  simp only [execute, Bus.accesses_bind, run_fetch, hd, if_neg hb, Bus.accesses_pure,
    List.append_nil]
  rfl

variable (s) in
/-- The stack pointer moves as far as the bytes that are pushed and pulled have room, and they are
reached in the stack page. -/
structure StackConfined : Prop where
  push : ∀ v m, ((s.push v).run m).1.sp.toNat = s.sp.toNat - 1
  moved : ∀ m i, Instruction.decode (m.read s.pc).1 = some i →
    i.mnemonic.usesStack = true → (s.step m).2.1.sp.toNat =
      min (s.sp.toNat - i.mnemonic.pushes + i.mnemonic.pulls) 0x100
  kept : ∀ m i, Instruction.decode (m.read s.pc).1 = some i →
    i.mnemonic.usesStack = false → i.mnemonic ≠ .txs → (s.step m).2.1.sp = s.sp
  reached : ∀ m i, Instruction.decode (m.read s.pc).1 = some i → i.mnemonic.usesStack = true →
    ∃ stack, s.execute.accesses m = Access.fetches s.pc i.mode.instructionSize ++ stack ∧
      ∀ x ∈ stack, InStackPage x.address

theorem stackConfined (hs : s.sp ≤ emptyStack) : s.StackConfined where
  push v m := by
    rw [run_push]
    exact toNat_sp_lowered 1
  moved m i hd hu := by
    rw [← Mnemonic.usesStack_operation] at hu
    rw [← Mnemonic.pushes_operation, ← Mnemonic.pulls_operation]
    have hb := Mnemonic.ne_brk_of_usesStack hu
    rw [step_of_some hd hb,
      run_perform_of_usesStack (s := s.fetched) hs (Instruction.mode_of_call hd) hu]
    exact sp_transfer (s := s.fetched) hs hu
  kept m i hd hu hw := by
    rw [← Mnemonic.usesStack_operation] at hu
    by_cases hb : i.mnemonic = .brk
    · rw [step_of_brk hd hb]
      rfl
    · rw [step_of_some hd hb]
      have hop := Mnemonic.operation_ne_writeStackPointer hw
      exact congrArg Prod.fst (stackView_perform (s := s.fetched) hu hop)
  reached m i hd hu := by
    rw [← Mnemonic.usesStack_operation] at hu
    obtain ⟨stack, hstack, hpage⟩ := accesses_perform (s := s.fetched) (m := (m.read s.pc).2) hs
      (Instruction.mode_of_call hd) (Instruction.suits_of_decode hd) hu
    refine ⟨stack, ?_, hpage⟩
    rw [accesses_execute hd (Mnemonic.ne_brk_of_usesStack hu), hstack,
      AddressingMode.instructionSize, Nat.add_comm]
    rfl

theorem stack_confined_after (origin : UInt16) (as : List Action) :
    ((initial origin).after as).WellFormed ∧ ((initial origin).after as).StackConfined := by
  have h := wellFormed_after (wellFormed_initial origin) as
  exact ⟨h, stackConfined h.sp_le⟩

theorem stack_confined_after_overflow :
    let m := Memory.blank.hookReads ⟨0x0600, 0x0602⟩ (.host fun _ ↦ 0x20)
    let s := (initial 0x0600).after [.setStackPointer 1, .execute m]
    s.sp = 0 ∧ s.WellFormed ∧ s.StackConfined :=
  ⟨by decide +kernel, stack_confined_after _ _⟩

end Processor

end Micro6502
