import Micro6502.Proofs.WriteTrace

namespace Micro6502

theorem Flag.mask_and_mask {f g : Flag} (h : f ≠ g) : f.mask &&& g.mask = 0 := by
  cases f <;> cases g <;> first | rfl | exact absurd rfl h

namespace Status

variable {p : Status} {mask mask' : UInt8}

theorem getElem_of_and_eq_zero (h : mask &&& mask' = 0) (i : Nat) (hi : i < 8) :
    (mask.toBitVec[i] && mask'.toBitVec[i]) = false := by
  have hbit := congrArg (fun b : UInt8 ↦ b.toBitVec[i]) h
  simpa only [UInt8.toBitVec_and, BitVec.getElem_and] using hbit.trans (BitVec.getElem_zero hi)

theorem and_assign_of_disjoint (h : mask &&& mask' = 0) (h' : Flag.unused.mask &&& mask' = 0)
    (on : Bool) : p.assign mask on &&& mask' = p &&& mask' := by
  apply UInt8.toBitVec_inj.1
  ext i hi
  rw [UInt8.toBitVec_and, UInt8.toBitVec_and, BitVec.getElem_and, BitVec.getElem_and]
  have hbit := getElem_of_and_eq_zero h i hi
  have hunused := getElem_of_and_eq_zero h' i hi
  cases hmask : mask'.toBitVec[i] with
  | false => rw [Bool.and_false, Bool.and_false]
  | true =>
    rw [hmask, Bool.and_true] at hbit hunused
    cases on <;> simp [assign, hbit, hunused]

theorem and_assign_self (h : Flag.unused.mask &&& mask = 0) (on : Bool) :
    p.assign mask on &&& mask = if on then mask else 0 := by
  apply UInt8.toBitVec_inj.1
  ext i hi
  have hunused := getElem_of_and_eq_zero h i hi
  cases hmask : mask.toBitVec[i] with
  | false => cases on <;> simp [hmask]
  | true =>
    rw [hmask, Bool.and_true] at hunused
    cases on <;> simp [assign, hmask, hunused]

end Status

namespace Mnemonic

def flags : Mnemonic → List Flag
  | lda | ldx | ldy | and | ora | eor | inc | dec | inx | iny | dex | dey | tax | tay | txa | tya
  | tsx | pla => [.negative, .zero]
  | cmp | cpx | cpy | asl | lsr | rol | ror => [.negative, .zero, .carry]
  | adc | sbc => [.negative, .zero, .carry, .overflow]
  | bit => [.negative, .zero, .overflow]
  | clc | sec => [.carry]
  | cld | sed => [.decimal]
  | cli | sei => [.interruptDisable]
  | clv => [.overflow]
  | plp | rti => [.negative, .overflow, .brk, .decimal, .interruptDisable, .zero, .carry]
  | _ => []

end Mnemonic

def Instruction.register? (i : Instruction) : Option Register :=
  match i.mnemonic with
  | .lda | .adc | .sbc | .and | .ora | .eor | .pla | .txa | .tya => some .a
  | .asl | .lsr | .rol | .ror => if i.mode = .single then some .a else none
  | .ldx | .inx | .dex | .tax | .tsx => some .x
  | .ldy | .iny | .dey | .tay => some .y
  | _ => none

namespace Operation

def flags : Operation → List Flag
  | load _ | combine _ | adjustMemory _ | adjustRegister _ _ | transfer _ _ | readStackPointer
  | pullAccumulator => [.negative, .zero]
  | compare _ | shift _ => [.negative, .zero, .carry]
  | add | subtract => [.negative, .zero, .carry, .overflow]
  | bitTest => [.negative, .zero, .overflow]
  | setFlag f _ => [f]
  | pullStatus | returnFromInterrupt =>
    [.negative, .overflow, .brk, .decimal, .interruptDisable, .zero, .carry]
  | _ => []

def register? (mode : AddressingMode) : Operation → Option Register
  | load r | adjustRegister r _ | transfer _ r => some r
  | add | subtract | combine _ | pullAccumulator => some .a
  | shift _ => if mode = .single then some .a else none
  | readStackPointer => some .x
  | _ => none

end Operation

theorem Mnemonic.flags_operation (n : Mnemonic) : n.operation.flags = n.flags := by
  cases n <;> rfl

theorem Instruction.register?_operation (i : Instruction) :
    i.mnemonic.operation.register? i.mode = i.register? := by
  obtain ⟨mnemonic, mode⟩ := i
  cases mnemonic <;> rfl

namespace Processor

variable {s t : Processor} {m : Memory} {mode : AddressingMode} {op : Operation} {f g : Flag}
  {fs : List Flag} {r : Register} {v : UInt8}

theorem flag_setFlag_self (h : f ≠ .unused) (on : Bool) : (s.setFlag f on).flag f = on := by
  rw [flag, setFlag, Status.has, Status.and_assign_self (Flag.mask_and_mask h.symm)]
  cases on with
  | true => exact beq_self_eq_true _
  | false => cases f <;> rfl

theorem flag_setFlag_of_ne (h : f ≠ g) (hg : g ≠ .unused) (on : Bool) :
    (s.setFlag f on).flag g = s.flag g := by
  rw [flag, setFlag, Status.has,
    Status.and_assign_of_disjoint (Flag.mask_and_mask h) (Flag.mask_and_mask hg.symm)]
  rfl

/-- A state in which bit 5 is on and all flags are as before but those listed. -/
structure Keeps (fs : List Flag) (s t : Processor) : Prop where
  unused : t.flag .unused = true
  flag : ∀ f ∉ fs, t.flag f = s.flag f

theorem Keeps.refl (h : s.flag .unused = true) : Keeps fs s s := ⟨h, fun _ _ ↦ rfl⟩

theorem Keeps.setFlag (h : Keeps fs s t) (hf : f ∈ fs) (on : Bool) :
    Keeps fs s (t.setFlag f on) := by
  refine ⟨unused_setFlag f on, fun g hg ↦ ?_⟩
  by_cases hu : g = .unused
  · subst hu
    rw [unused_setFlag, ← h.flag _ hg, h.unused]
  · have hne : f ≠ g := fun he ↦ hg (he ▸ hf)
    rw [flag_setFlag_of_ne hne hu, h.flag g hg]

theorem Keeps.setZeroNegative (h : Keeps (.negative :: .zero :: fs) s t) (v : UInt8) :
    Keeps (.negative :: .zero :: fs) s (t.setZeroNegative v) :=
  (h.setFlag (List.mem_cons_of_mem _ List.mem_cons_self) _).setFlag List.mem_cons_self _

theorem Keeps.load (h : Keeps (.negative :: .zero :: fs) s t) (r : Register) (v : UInt8) :
    Keeps (.negative :: .zero :: fs) s (t.load r v) := by
  have hr : Keeps (.negative :: .zero :: fs) s (t.setRegister r v) := by
    cases r <;> exact ⟨h.unused, h.flag⟩
  exact hr.setZeroNegative v

theorem keeps_setStatus (h : s.flag .unused = true) (v : UInt8) :
    Keeps [.negative, .overflow, .brk, .decimal, .interruptDisable, .zero, .carry] s
      (t.setStatus v) := by
  refine ⟨unused_setStatus v, fun f hf ↦ ?_⟩
  cases f with
  | unused => rw [unused_setStatus, h]
  | _ => exact absurd (by decide) hf

/-- Z says that a byte is 0, and N is its bit 7. -/
structure Signs (s : Processor) (v : UInt8) : Prop where
  zero : s.flag .zero = true ↔ v = 0
  negative : s.flag .negative = true ↔ v &&& 0x80 ≠ 0

theorem signs_setZeroNegative (s : Processor) (v : UInt8) : (s.setZeroNegative v).Signs v := by
  constructor
  case zero =>
    rw [setZeroNegative, flag_setFlag_of_ne (by decide) (by decide),
      flag_setFlag_self (by decide)]
    exact beq_iff_eq
  case negative =>
    rw [setZeroNegative, flag_setFlag_self (by decide)]
    exact bne_iff_ne

def dataView (s : Processor) : (Register → UInt8) × Status := (s.register, s.status)

theorem Keeps.congr {u : Processor} (h : Keeps fs s t) (hd : u.dataView = t.dataView) :
    Keeps fs s u := by
  have hflag (f : Flag) : u.flag f = t.flag f := congrArg (fun d ↦ d.2.has f.mask) hd
  exact ⟨(hflag .unused).trans h.unused, fun f hf ↦ (hflag f).trans (h.flag f hf)⟩

theorem dataView_push (v : UInt8) : ((s.push v).run m).1.dataView = s.dataView := by
  unfold push
  split
  · rfl
  · rfl

theorem dataView_pull : (s.pull.run m).1.2.dataView = s.dataView := by
  unfold pull
  split
  · rfl
  · rfl

theorem dataView_pushWord (w : UInt16) : ((s.pushWord w).run m).1.dataView = s.dataView := by
  simp only [pushWord, Bus.run_bind, dataView_push]

theorem dataView_pullWord : (s.pullWord.run m).1.2.dataView = s.dataView := by
  simp only [pullWord, Bus.run_bind, Bus.run_pure, dataView_pull]

theorem dataView_pc (v : UInt16) : ({ s with pc := v } : Processor).dataView = s.dataView := rfl

theorem dataView_perform (h : op.flags = []) :
    ((s.perform mode op).run m).1.dataView = s.dataView := by
  cases op with
  | store r | jump =>
    simp only [perform, Bus.run_bind, Bus.run_pure, state_operandAddress, dataView_pc]
  | branch f taken =>
    rw [perform, run_branch]
    split
    · rfl
    · rfl
  | call =>
    simp only [perform, Bus.run_bind, Bus.run_pure, state_operandAddress, dataView_pushWord,
      dataView_pc]
  | returnFromCall =>
    simp only [perform, Bus.run_bind, Bus.run_pure, dataView_pullWord, dataView_pc]
  | pushAccumulator | pushStatus => exact dataView_push _
  | writeStackPointer | brk | nothing => rfl
  | _ => cases h

theorem keeps_perform (hu : s.flag .unused = true) :
    Keeps op.flags s ((s.perform mode op).run m).1 := by
  have hpc (n : UInt16) (fs : List Flag) : Keeps fs s { s with pc := n } :=
    (Keeps.refl hu).congr rfl
  have hcarry : Flag.carry ∈ [Flag.negative, .zero, .carry] := by decide
  cases op with
  | load r | combine k =>
    simp only [perform, Bus.run_bind, Bus.run_pure, state_operand]
    exact (hpc _ _).load _ _
  | add | subtract =>
    simp only [perform, Bus.run_bind, Bus.run_pure, state_operand]
    exact (((hpc _ _).setFlag (by decide) _).setFlag (by decide) _).load _ _
  | compare r =>
    simp only [perform, Bus.run_bind, Bus.run_pure, state_operand]
    exact ((hpc _ _).setFlag hcarry _).setZeroNegative _
  | bitTest =>
    simp only [perform, Bus.run_bind, Bus.run_pure, state_operand]
    exact (((hpc _ _).setFlag (by decide) _).setFlag (by decide) _).setFlag (by decide) _
  | adjustMemory delta =>
    simp only [perform, Bus.run_bind, Bus.run_pure, state_modify]
    exact (hpc _ _).setZeroNegative _
  | shift k =>
    rw [perform, shift]
    by_cases hm : mode = .single
    · have ha (v : UInt8) : Keeps [.negative, .zero, .carry] s { s with a := v } :=
        ⟨hu, fun _ _ ↦ rfl⟩
      rw [if_pos hm]
      exact ((ha _).setFlag hcarry _).setZeroNegative _
    · simp only [if_neg hm, Bus.run_bind, Bus.run_pure, state_modify]
      exact ((hpc _ _).setFlag hcarry _).setZeroNegative _
  | adjustRegister r delta | transfer source r | readStackPointer => exact (Keeps.refl hu).load _ _
  | setFlag f on => exact (Keeps.refl hu).setFlag List.mem_cons_self on
  | pullAccumulator =>
    simp only [perform, Bus.run_bind, Bus.run_pure]
    exact ((Keeps.refl hu).congr dataView_pull).load _ _
  | pullStatus =>
    simp only [perform, Bus.run_bind, Bus.run_pure]
    exact keeps_setStatus hu _
  | returnFromInterrupt =>
    simp only [perform, Bus.run_bind, Bus.run_pure]
    exact (keeps_setStatus hu _).congr dataView_pullWord
  | store r | branch f taken | jump | call | returnFromCall | pushAccumulator | pushStatus
  | writeStackPointer | brk | nothing => exact (Keeps.refl hu).congr (dataView_perform rfl)

theorem register_load (r' r : Register) (v : UInt8) :
    (s.load r v).register r' = if r' = r then v else s.register r' := by
  cases r <;> cases r' <;> rfl

theorem register_load_of_ne {r' : Register} (h : some r ≠ some r') (v : UInt8) :
    (s.load r v).register r' = s.register r' := by
  rw [register_load, if_neg fun he ↦ h (congrArg some he.symm)]

theorem register_load_self (r : Register) (v : UInt8) : (s.load r v).register r = v := by
  rw [register_load, if_pos rfl]

theorem register_perform (hr : op.register? mode ≠ some r) :
    ((s.perform mode op).run m).1.register r = s.register r := by
  have hquiet (h : op.flags = []) : ((s.perform mode op).run m).1.register r = s.register r :=
    congrFun (congrArg Prod.fst (dataView_perform h)) r
  cases op with
  | load r' | combine k | add | subtract =>
    simp only [perform, Bus.run_bind, Bus.run_pure, state_operand]
    exact register_load_of_ne hr _
  | compare r' | bitTest =>
    simp only [perform, Bus.run_bind, Bus.run_pure, state_operand]
    rfl
  | adjustMemory delta =>
    simp only [perform, Bus.run_bind, Bus.run_pure, state_modify]
    rfl
  | shift k =>
    rw [perform, shift]
    by_cases hm : mode = .single
    · subst hm
      rw [if_pos rfl]
      cases r with
      | a => exact absurd rfl hr
      | x => rfl
      | y => rfl
    · simp only [if_neg hm, Bus.run_bind, Bus.run_pure, state_modify]
      rfl
  | adjustRegister r' delta | transfer source r' | readStackPointer =>
    exact register_load_of_ne hr _
  | pullAccumulator =>
    simp only [perform, Bus.run_bind, Bus.run_pure]
    rw [register_load_of_ne hr]
    exact congrFun (congrArg Prod.fst dataView_pull) r
  | pullStatus =>
    simp only [perform, Bus.run_bind, Bus.run_pure]
    exact congrFun (congrArg Prod.fst dataView_pull) r
  | returnFromInterrupt =>
    simp only [perform, Bus.run_bind, Bus.run_pure]
    refine (congrFun (congrArg Prod.fst dataView_pullWord) r).trans ?_
    exact congrFun (congrArg Prod.fst dataView_pull) r
  | setFlag f on => rfl
  | store r | branch f taken | jump | call | returnFromCall | pushAccumulator | pushStatus
  | writeStackPointer | brk | nothing => exact hquiet rfl

theorem signs_of_register? (hr : op.register? mode = some r) :
    ((s.perform mode op).run m).1.Signs (((s.perform mode op).run m).1.register r) := by
  have hload (t : Processor) (v : UInt8) : (t.load r v).Signs ((t.load r v).register r) := by
    rw [register_load_self]
    exact signs_setZeroNegative _ v
  cases op with
  | load r' | combine k | add | subtract | pullAccumulator =>
    cases hr
    simp only [perform, Bus.run_bind, Bus.run_pure]
    exact hload _ _
  | adjustRegister r' delta | transfer source r' | readStackPointer =>
    cases hr
    exact hload _ _
  | shift k =>
    rw [perform, shift]
    by_cases hm : mode = .single
    · subst hm
      cases hr
      rw [if_pos rfl]
      exact signs_setZeroNegative _ _
    · rw [Operation.register?, if_neg hm] at hr
      cases hr
  | _ => cases hr

/-- The byte that an operation works on. In the immediate mode it is the operand byte itself. -/
def operandByte (s : Processor) (m : Memory) (mode : AddressingMode) : UInt8 :=
  if mode = .immediate then (m.read s.pc).1 else s.targetByte m mode

theorem value_operand : ((s.operand mode).run m).1.1 = s.operandByte m mode := by
  by_cases hm : mode = .immediate
  · subst hm
    rfl
  · simp only [operand, Bus.run_bind, Bus.run_get, Bus.run_pure, run_operandAddress,
      memory_operandAddress hm, operandByte, if_neg hm]
    rfl

theorem peek_modify (f : UInt8 → UInt8) :
    ((s.modify mode f).run m).2.peek (s.target m mode) = f ((s.modify mode f).run m).1.1 := by
  simp only [modify, Bus.run_bind, Bus.run_get, Bus.run_put, Bus.run_pure, run_operandAddress,
    Memory.peek_write, if_true]

theorem signs_compare (r : Register) : ((s.perform mode (.compare r)).run m).1.Signs
    (s.register r - s.operandByte m mode) := by
  simp only [perform, Bus.run_bind, Bus.run_pure, state_operand, value_operand]
  exact signs_setZeroNegative _ _

theorem signs_adjustMemory (delta : UInt8) :
    let p := (s.perform mode (.adjustMemory delta)).run m
    p.1.Signs (p.2.peek (s.target m mode)) := by
  simp only [perform, Bus.run_bind, Bus.run_pure, peek_modify]
  exact signs_setZeroNegative _ _

theorem signs_shift (h : mode ≠ .single) (k : Shift) :
    let p := (s.perform mode (.shift k)).run m
    p.1.Signs (p.2.peek (s.target m mode)) := by
  rw [perform, shift]
  simp only [if_neg h, Bus.run_bind, Bus.run_pure, peek_modify]
  exact signs_setZeroNegative _ _

end Processor

/-- The byte that Z and N are taken from: the one that is loaded into a register, the difference by
which a register is compared, or else the one that is left in memory. The operand is as it is before
the instruction is performed. -/
def Instruction.signByte (i : Instruction) (s : Processor) (m : Memory)
    (after : Processor × Memory) : UInt8 :=
  match i.register? with
  | some r => after.1.register r
  | none =>
    match i.mnemonic with
    | .cmp => s.a - s.operandByte m i.mode
    | .cpx => s.x - s.operandByte m i.mode
    | .cpy => s.y - s.operandByte m i.mode
    | _ => after.2.peek (s.target m i.mode)

namespace Processor

variable {s : Processor} {m : Memory} {i : Instruction}

theorem signs_perform (hz : .zero ∈ i.mnemonic.flags)
    (hcopied : i.mnemonic ∉ [.bit, .plp, .rti]) :
    let p := (s.perform i.mode i.mnemonic.operation).run m
    p.1.Signs (i.signByte s m p) := by
  intro p
  cases hr : i.register? with
  | some r =>
    rw [Instruction.signByte, hr]
    exact signs_of_register? (i.register?_operation.trans hr)
  | none =>
    obtain ⟨mnemonic, mode⟩ := i
    dsimp only at hz hcopied
    cases mnemonic with
    | cmp | cpx | cpy => exact signs_compare _
    | inc | dec => exact signs_adjustMemory _
    | asl | lsr | rol | ror =>
      have hm : mode ≠ .single := by
        rintro rfl
        cases hr
      rw [Instruction.signByte, hr]
      exact signs_shift hm _
    | bit | plp | rti => exact absurd (by decide) hcopied
    | lda | ldx | ldy | and | ora | eor | adc | sbc | inx | iny | dex | dey | tax | tay | txa | tya
    | tsx | pla => cases hr
    | _ => exact absurd hz (by decide)

/-- A break performs nothing, so it is no exception here. -/
theorem state_step (hd : Instruction.decode (m.read s.pc).1 = some i) : (s.step m).2 =
    let p := (s.fetched.perform i.mode i.mnemonic.operation).run (m.read s.pc).2
    ({ p.1 with fault := none }, p.2) := by
  by_cases hb : i.mnemonic = .brk
  · obtain rfl := Instruction.eq_brk hd hb
    rw [step_of_brk hd hb]
    rfl
  · rw [step_of_some hd hb]

theorem sp_perform_of_not_mem (h : i.mnemonic ∉ [.pha, .php, .pla, .plp, .jsr, .rts, .rti, .txs]) :
    ((s.perform i.mode i.mnemonic.operation).run m).1.sp = s.sp := by
  have hop : i.mnemonic.operation.usesStack = false ∧
      i.mnemonic.operation ≠ .writeStackPointer := by
    obtain ⟨mnemonic, mode⟩ := i
    dsimp only at h ⊢
    cases mnemonic with
    | pha | php | pla | plp | jsr | rts | rti | txs => exact absurd (by decide) h
    | _ => decide
  exact congrArg Prod.fst (stackView_perform hop.1 hop.2)

variable (s m) in
/-- What an instruction changes at most, and what Z and N tell where they are not copied from
elsewhere. -/
structure ChangesOnly : Prop where
  unused_on : (s.step m).2.1.flag .unused = true
  unknown : Instruction.decode (m.read s.pc).1 = none →
    (s.step m).2.1 = { s with pc := s.pc + 1, fault := none }
  flags : ∀ i, Instruction.decode (m.read s.pc).1 = some i →
    ∀ f ∉ i.mnemonic.flags, (s.step m).2.1.flag f = s.flag f
  registers : ∀ i, Instruction.decode (m.read s.pc).1 = some i →
    ∀ r, i.register? ≠ some r → (s.step m).2.1.register r = s.register r
  stackPointer : ∀ i, Instruction.decode (m.read s.pc).1 = some i →
    i.mnemonic ∉ [.pha, .php, .pla, .plp, .jsr, .rts, .rti, .txs] → (s.step m).2.1.sp = s.sp
  signs : ∀ i, Instruction.decode (m.read s.pc).1 = some i →
    .zero ∈ i.mnemonic.flags → i.mnemonic ∉ [.bit, .plp, .rti] →
    (s.step m).2.1.Signs (i.signByte s.fetched (m.read s.pc).2 (s.step m).2)

theorem changes_only (hu : s.flag .unused = true) (m : Memory) : s.ChangesOnly m := by
  have hkeeps {i : Instruction} (hd : Instruction.decode (m.read s.pc).1 = some i) :
      Keeps i.mnemonic.flags s (s.step m).2.1 := by
    rw [state_step hd, ← i.mnemonic.flags_operation]
    have hperform : Keeps i.mnemonic.operation.flags s.fetched
        ((s.fetched.perform i.mode i.mnemonic.operation).run (m.read s.pc).2).1 := keeps_perform hu
    exact ⟨hperform.unused, hperform.flag⟩
  constructor
  case unused_on =>
    cases hd : Instruction.decode (m.read s.pc).1 with
    | none =>
      rw [step_of_none hd]
      exact hu
    | some i => exact (hkeeps hd).unused
  case unknown =>
    intro hd
    rw [step_of_none hd]
    rfl
  case flags =>
    intro i hd
    exact (hkeeps hd).flag
  case registers =>
    intro i hd r hr
    rw [state_step hd]
    rw [← i.register?_operation] at hr
    exact register_perform (s := s.fetched) hr
  case stackPointer =>
    intro i hd h
    rw [state_step hd]
    exact sp_perform_of_not_mem (s := s.fetched) h
  case signs =>
    intro i hd hz hcopied
    rw [state_step hd]
    obtain ⟨hzero, hnegative⟩ :=
      signs_perform (s := s.fetched) (m := (m.read s.pc).2) hz hcopied
    exact ⟨hzero, hnegative⟩

theorem changes_only_rolled :
    let m := Memory.blank.hookReads ⟨0x0600, 0x0600⟩ (.host fun _ ↦ 0x2A)
    let s : Processor := { Processor.initial 0x0600 with a := 0x81, status := 0x29 }
    s.flag .unused = true ∧ Instruction.decode (m.read s.pc).1 = some ⟨.rol, .single⟩ ∧
      (s.step m).2.1.a = 0x03 ∧ (s.step m).2.1.flag .negative = false ∧
      (s.step m).2.1.flag .decimal = true ∧ s.ChangesOnly m := by
  intro m s
  have hu : s.flag .unused = true := by decide +kernel
  refine ⟨hu, ?_, ?_, ?_, ?_, changes_only hu m⟩
  · decide +kernel
  · decide +kernel
  · decide +kernel
  · decide +kernel

end Processor

end Micro6502
