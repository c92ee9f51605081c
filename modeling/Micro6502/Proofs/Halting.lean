import Micro6502.Proofs.InstructionStep

namespace Micro6502

namespace Mnemonic

variable (m : Mnemonic) (sp : UInt16)

def Overflows : Prop := (m = .pha ∨ m = .php) ∧ sp = 0 ∨ m = .jsr ∧ sp ≤ 1

def Underflows : Prop :=
  (m = .pla ∨ m = .plp) ∧ sp = 0x100 ∨ m = .rts ∧ 0xFF ≤ sp ∨ m = .rti ∧ 0xFE ≤ sp

variable {sp}

theorem overflows_iff : m.Overflows sp ↔ sp.toNat < m.operation.pushes := by
  have hone : sp = 0 ↔ sp.toNat < 1 := by
    simp only [← UInt16.toNat_inj, UInt16.reduceToNat]
    omega
  have htwo : sp ≤ 1 ↔ sp.toNat < 2 := by
    simp only [UInt16.le_iff_toNat_le, UInt16.reduceToNat]
    omega
  rw [Overflows, hone, htwo]
  cases m <;> simp [operation, Operation.pushes]

theorem underflows_iff (hsp : sp ≤ Processor.emptyStack) :
    m.Underflows sp ↔ 0x100 < sp.toNat + m.operation.pulls := by
  have hle : sp.toNat ≤ 0x100 := UInt16.le_iff_toNat_le.1 hsp
  have hone : sp = 0x100 ↔ 0x100 < sp.toNat + 1 := by
    simp only [← UInt16.toNat_inj, UInt16.reduceToNat]
    omega
  have htwo : 0xFF ≤ sp ↔ 0x100 < sp.toNat + 2 := by
    simp only [UInt16.le_iff_toNat_le, UInt16.reduceToNat]
    omega
  have hthree : 0xFE ≤ sp ↔ 0x100 < sp.toNat + 3 := by
    simp only [UInt16.le_iff_toNat_le, UInt16.reduceToNat]
    omega
  rw [Underflows, hone, htwo, hthree]
  cases m <;> simp [operation, Operation.pulls, hle]

end Mnemonic

theorem Instruction.eq_brk {opcode : UInt8} {i : Instruction} (h : decode opcode = some i)
    (hb : i.mnemonic = .brk) : i = ⟨.brk, .single⟩ := by
  have hmode : i.mode = .single := by
    have hs := suits_of_decode h
    rw [hb] at hs
    exact of_decide_eq_true hs
  rw [← hb, ← hmode]

theorem Operation.pushes_eq_zero_or (op : Operation) : op.pushes = 0 ∨ op.pulls = 0 := by
  cases op <;> first | exact .inl rfl | exact .inr rfl

namespace Processor

variable {s : Processor} {m : Memory} {i : Instruction} {mode : AddressingMode} {op : Operation}

theorem stackFault_eq_overflow_iff (hs : s.sp ≤ emptyStack) :
    s.stackFault op = some .overflow ↔ s.sp.toNat < op.pushes := by
  rcases op.pushes_eq_zero_or with h | h
  · rw [stackFault_eq_ofPulls h, StackFault.ofPulls, h]
    split <;> simp
  · rw [stackFault_eq_ofPushes hs h, StackFault.ofPushes]
    simp

theorem stackFault_eq_underflow_iff (hs : s.sp ≤ emptyStack) :
    s.stackFault op = some .underflow ↔ 0x100 < s.sp.toNat + op.pulls := by
  have hle := toNat_sp_le hs
  rcases op.pushes_eq_zero_or with h | h
  · rw [stackFault_eq_ofPulls h, StackFault.ofPulls]
    simp
  · rw [stackFault_eq_ofPushes hs h, StackFault.ofPushes, h]
    split <;> simp [hle]

theorem stackFault_of_not_usesStack (hs : s.sp ≤ emptyStack) (hu : op.usesStack = false) :
    s.stackFault op = none := by
  have hzero : op.pushes + op.pulls = 0 := by simpa [Operation.usesStack] using hu
  rw [stackFault_eq_ofPushes hs (by omega), StackFault.ofPushes, if_neg (by omega)]

theorem fault_transfer : (s.transfer m op).1.fault = s.fault := by
  cases op <;> rfl

theorem fault_perform (hs : s.sp ≤ emptyStack) (hm : op = .call → mode = .absolute) :
    ((s.perform mode op).run m).1.fault = s.fault.or (s.stackFault op) := by
  cases hu : op.usesStack with
  | true => rw [run_perform_of_usesStack hs hm hu, blame, fault_transfer]
  | false =>
    rw [stackFault_of_not_usesStack hs hu, Option.or_none]
    by_cases hw : op = .writeStackPointer
    · subst hw
      rfl
    · exact congrArg Prod.snd (stackView_perform hu hw)

theorem forget_blame {f : Option StackFault} (h : s.fault = none) :
    { s.blame f with fault := none } = s := by
  cases s
  cases h
  rfl

section Outcome

variable {f : StackFault}

theorem outcome_eq_stack_iff : s.outcome = .halted (.stack f) ↔ s.fault = some f := by
  unfold outcome
  split
  · simp [*]
  · split <;> simp [*]

theorem outcome_eq_programEnd_iff :
    s.outcome = .halted .programEnd ↔ s.fault = none ∧ s.pc = 0 := by
  unfold outcome
  split
  · simp [*]
  · split <;> simp [*]

theorem outcome_eq_running_iff : s.outcome = .running ↔ s.fault = none ∧ s.pc ≠ 0 := by
  unfold outcome
  split
  · simp [*]
  · split <;> simp [*]

theorem outcome_ne_unknownOpcode (b : UInt8) (a : UInt16) :
    s.outcome ≠ .halted (.unknownOpcode b a) := by
  unfold outcome
  split
  · nofun
  · split <;> nofun

theorem outcome_ne_brk (a : UInt16) : s.outcome ≠ .halted (.brk a) := by
  unfold outcome
  split
  · nofun
  · split <;> nofun

end Outcome

theorem outcome_step (hs : s.sp ≤ emptyStack) (hd : Instruction.decode (m.read s.pc).1 = some i)
    (hb : i.mnemonic ≠ .brk) : ∃ t : Processor, (s.step m).1 = t.outcome ∧
      t.fault = s.stackFault i.mnemonic.operation ∧ t.pc = (s.step m).2.1.pc := by
  rw [step_of_some hd hb]
  exact ⟨_, rfl, fault_perform (s := s.fetched) hs (Instruction.mode_of_call hd), rfl⟩

theorem outcome_step_of_fits (hs : s.sp ≤ emptyStack)
    (hd : Instruction.decode (m.read s.pc).1 = some i) (hb : i.mnemonic ≠ .brk)
    (hf : s.stackFault i.mnemonic.operation = none) :
    (s.step m).1 = if (s.step m).2.1.pc = 0 then .halted .programEnd else .running := by
  obtain ⟨t, houtcome, hfault, hpc⟩ := outcome_step hs hd hb
  rw [houtcome, outcome, hfault, hf, hpc]

theorem step_of_usesStack (hs : s.sp ≤ emptyStack)
    (hd : Instruction.decode (m.read s.pc).1 = some i)
    (hu : i.mnemonic.operation.usesStack = true) :
    (s.step m).2 = s.fetched.transfer (m.read s.pc).2 i.mnemonic.operation := by
  rw [step_of_some hd (Mnemonic.ne_brk_of_usesStack hu),
    run_perform_of_usesStack (s := s.fetched) hs (Instruction.mode_of_call hd) hu]
  exact Prod.ext (forget_blame fault_transfer) rfl

/-- What an instruction does for which the stack is too full or too empty. -/
theorem step_of_stackFault {f : StackFault} (hs : s.sp ≤ emptyStack)
    (hd : Instruction.decode (m.read s.pc).1 = some i)
    (hf : s.stackFault i.mnemonic.operation = some f) :
    (s.step m).2 = s.fetched.transfer (m.read s.pc).2 i.mnemonic.operation := by
  have hu : i.mnemonic.operation.usesStack = true := by
    cases hu : i.mnemonic.operation.usesStack with
    | true => rfl
    | false => exact absurd (hf.symm.trans (stackFault_of_not_usesStack hs hu)) nofun
  exact step_of_usesStack hs hd hu

variable (s m)

/-- Why an instruction stops the processor, and what it leaves behind if it is not carried out or
if the stack fails it. -/
structure Classified : Prop where
  unknownOpcode : ∀ b a, (s.step m).1 = .halted (.unknownOpcode b a) ↔
    b = (m.read s.pc).1 ∧ a = s.pc ∧ Instruction.decode b = none
  brk : ∀ a, (s.step m).1 = .halted (.brk a) ↔
    a = s.pc ∧ Instruction.decode (m.read s.pc).1 = some ⟨.brk, .single⟩
  stopped : Instruction.decode (m.read s.pc).1 = none ∨
      Instruction.decode (m.read s.pc).1 = some ⟨.brk, .single⟩ →
    (s.step m).2 = ({ s with pc := s.pc + 1, fault := none }, (m.read s.pc).2)
  overflow : (s.step m).1 = .halted (.stack .overflow) ↔
    ∃ i, Instruction.decode (m.read s.pc).1 = some i ∧ i.mnemonic.Overflows s.sp
  underflow : (s.step m).1 = .halted (.stack .underflow) ↔
    ∃ i, Instruction.decode (m.read s.pc).1 = some i ∧ i.mnemonic.Underflows s.sp
  programEnd : (s.step m).1 = .halted .programEnd ↔
    ∃ i, Instruction.decode (m.read s.pc).1 = some i ∧ i.mnemonic ≠ .brk ∧
      ¬ i.mnemonic.Overflows s.sp ∧ ¬ i.mnemonic.Underflows s.sp ∧ (s.step m).2.1.pc = 0
  running : (s.step m).1 = .running ↔
    ∃ i, Instruction.decode (m.read s.pc).1 = some i ∧ i.mnemonic ≠ .brk ∧
      ¬ i.mnemonic.Overflows s.sp ∧ ¬ i.mnemonic.Underflows s.sp ∧ (s.step m).2.1.pc ≠ 0
  completed : ∀ i, Instruction.decode (m.read s.pc).1 = some i →
    i.mnemonic.Overflows s.sp ∨ i.mnemonic.Underflows s.sp →
    (s.step m).2 = s.fetched.transfer (m.read s.pc).2 i.mnemonic.operation

variable {s m}

theorem classified_of_none (hd : Instruction.decode (m.read s.pc).1 = none) : s.Classified m := by
  have hstep := step_of_none hd
  constructor
  case unknownOpcode =>
    intro b a
    rw [hstep]
    constructor
    · rintro ⟨⟩
      exact ⟨rfl, rfl, hd⟩
    · rintro ⟨rfl, rfl, -⟩
      rfl
  all_goals simp [hstep, hd, fetched]

theorem classified_of_brk (hd : Instruction.decode (m.read s.pc).1 = some ⟨.brk, .single⟩) :
    s.Classified m := by
  have hstep := step_of_brk hd rfl
  constructor
  case unknownOpcode =>
    intro b a
    rw [hstep]
    constructor
    · rintro ⟨⟩
    · rintro ⟨rfl, -, hn⟩
      exact absurd (hd.symm.trans hn) nofun
  case brk =>
    intro a
    rw [hstep]
    constructor
    · rintro ⟨⟩
      exact ⟨rfl, hd⟩
    · rintro ⟨rfl, -⟩
      rfl
  all_goals simp [hstep, hd, fetched, Mnemonic.Overflows, Mnemonic.Underflows]

theorem classified_of_some (hs : s.sp ≤ emptyStack)
    (hd : Instruction.decode (m.read s.pc).1 = some i) (hb : i.mnemonic ≠ .brk) :
    s.Classified m := by
  obtain ⟨t, houtcome, hfault, hpc⟩ := outcome_step hs hd hb
  have hover : t.fault = some .overflow ↔ i.mnemonic.Overflows s.sp := by
    rw [hfault, stackFault_eq_overflow_iff hs, Mnemonic.overflows_iff]
  have hunder : t.fault = some .underflow ↔ i.mnemonic.Underflows s.sp := by
    rw [hfault, stackFault_eq_underflow_iff hs, Mnemonic.underflows_iff _ hs]
  have hnone : t.fault = none ↔ ¬ i.mnemonic.Overflows s.sp ∧ ¬ i.mnemonic.Underflows s.sp := by
    rw [← hover, ← hunder]
    rcases t.fault with _ | _ | _ <;> simp
  have hne : i ≠ ⟨.brk, .single⟩ := by
    rintro rfl
    exact hb rfl
  constructor
  case unknownOpcode =>
    intro b a
    rw [houtcome, iff_false_left (outcome_ne_unknownOpcode b a)]
    rintro ⟨rfl, -, hn⟩
    exact absurd (hd.symm.trans hn) nofun
  case brk =>
    intro a
    rw [houtcome, iff_false_left (outcome_ne_brk a)]
    rintro ⟨-, hn⟩
    exact hne (Option.some.inj (hd.symm.trans hn))
  case stopped =>
    simp [hd, hne]
  case overflow =>
    rw [houtcome, outcome_eq_stack_iff, hover]
    simp [hd]
  case underflow =>
    rw [houtcome, outcome_eq_stack_iff, hunder]
    simp [hd]
  case programEnd =>
    rw [houtcome, outcome_eq_programEnd_iff, hnone, hpc]
    simp [hd, hb, and_assoc]
  case running =>
    rw [houtcome, outcome_eq_running_iff, hnone, hpc]
    simp [hd, hb, and_assoc]
  case completed =>
    intro j hj hj'
    obtain rfl : i = j := Option.some.inj (hd.symm.trans hj)
    rw [← hover, ← hunder, hfault] at hj'
    rcases hj' with hf | hf
    · exact step_of_stackFault hs hd hf
    · exact step_of_stackFault hs hd hf

theorem step_classified (hs : s.sp ≤ emptyStack) : s.Classified m := by
  cases hd : Instruction.decode (m.read s.pc).1 with
  | none => exact classified_of_none hd
  | some i =>
    by_cases hb : i.mnemonic = .brk
    · obtain rfl := Instruction.eq_brk hd hb
      exact classified_of_brk hd
    · exact classified_of_some hs hd hb

theorem step_classified_last_slot :
    let s := { initial 0x0600 with sp := 1 }
    let m := Memory.blank.hookReads ⟨0x0600, 0x0602⟩ (.host fun _ ↦ 0x20)
    s.sp ≤ emptyStack ∧ s.Classified m ∧ (s.step m).1 = .halted (.stack .overflow) := by
  intro s m
  have hs : s.sp ≤ emptyStack := by decide
  have hd : Instruction.decode (m.read s.pc).1 = some ⟨.jsr, .absolute⟩ := by decide +kernel
  have hover : Mnemonic.jsr.Overflows s.sp := .inr ⟨rfl, by decide⟩
  have hc : s.Classified m := step_classified hs
  exact ⟨hs, hc, hc.overflow.2 ⟨_, hd, hover⟩⟩

end Processor

end Micro6502
