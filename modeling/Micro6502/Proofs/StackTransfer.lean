import Micro6502.Proofs.ProgramCounter

namespace Micro6502

namespace Memory

/-- Stores a byte in the slot below an offset. Below the lowest offset there is none. -/
def pushAt (m : Memory) : Nat → UInt8 → Memory
  | 0, _ => m
  | n + 1, v => m.write (Processor.slot (UInt16.ofNat n)) v

/-- Reads the slot at an offset. Behind the stack page there are zeros, and nobody is asked. -/
def pullAt (m : Memory) (n : Nat) : UInt8 × Memory :=
  if n < 0x100 then m.read (Processor.slot (UInt16.ofNat n)) else (0, m)

theorem pullAt_min_add (m : Memory) (n k : Nat) :
    m.pullAt (min n 0x100 + k) = m.pullAt (n + k) := by
  by_cases h : n < 0x100
  · rw [Nat.min_eq_left (Nat.le_of_lt h)]
  · rw [pullAt, if_neg (by omega), pullAt, if_neg (by omega)]

theorem pullAt_min (m : Memory) (n : Nat) : m.pullAt (min n 0x100) = m.pullAt n :=
  m.pullAt_min_add n 0

end Memory

namespace StackFault

def ofPushes (top n : Nat) : Option StackFault := if top < n then some overflow else none

def ofPulls (top n : Nat) : Option StackFault := if 0x100 < top + n then some underflow else none

theorem ofPushes_or (top n k : Nat) :
    (ofPushes top n).or (ofPushes (top - n) k) = ofPushes top (n + k) := by
  unfold ofPushes
  by_cases hn : top < n
  · have hnk : top < n + k := by omega
    rw [if_pos hn, if_pos hnk, Option.some_or]
  · have hnk : top - n < k ↔ top < n + k := by omega
    simp only [hn, hnk, if_false, Option.none_or]

theorem ofPulls_or (top n k : Nat) :
    (ofPulls top n).or (ofPulls (min (top + n) 0x100) k) = ofPulls top (n + k) := by
  unfold ofPulls
  by_cases hn : 0x100 < top + n
  · have hnk : 0x100 < top + (n + k) := by omega
    rw [if_pos hn, if_pos hnk, Option.some_or]
  · rw [if_neg hn, Option.none_or, Nat.min_eq_left (by omega), Nat.add_assoc]

end StackFault

namespace Operation

def pushes : Operation → Nat
  | pushAccumulator | pushStatus => 1
  | call => 2
  | _ => 0

def pulls : Operation → Nat
  | pullAccumulator | pullStatus => 1
  | returnFromCall => 2
  | returnFromInterrupt => 3
  | _ => 0

def usesStack (op : Operation) : Bool := op.pushes + op.pulls ≠ 0

end Operation

namespace Mnemonic

def pushes : Mnemonic → Nat
  | pha | php => 1
  | jsr => 2
  | _ => 0

def pulls : Mnemonic → Nat
  | pla | plp => 1
  | rts => 2
  | rti => 3
  | _ => 0

def usesStack (m : Mnemonic) : Bool := m.pushes + m.pulls ≠ 0

variable (m : Mnemonic)

theorem pushes_operation : m.operation.pushes = m.pushes := by
  cases m <;> rfl

theorem pulls_operation : m.operation.pulls = m.pulls := by
  cases m <;> rfl

theorem usesStack_operation : m.operation.usesStack = m.usesStack := by
  rw [Operation.usesStack, pushes_operation, pulls_operation, usesStack]

end Mnemonic

namespace Processor

variable (s : Processor)

def lowered (n : Nat) : Processor := { s with sp := UInt16.ofNat (s.sp.toNat - n) }

def raised (n : Nat) : Processor := { s with sp := UInt16.ofNat (min (s.sp.toNat + n) 0x100) }

def blame (f : Option StackFault) : Processor := { s with fault := s.fault.or f }

/-- What a stack instruction does behind its opcode, whatever the stack holds. -/
def transfer (s : Processor) (m : Memory) : Operation → Processor × Memory
  | .pushAccumulator => (s.lowered 1, m.pushAt s.sp.toNat s.a)
  | .pushStatus => (s.lowered 1, m.pushAt s.sp.toNat s.status)
  | .call =>
    let (target, m) := m.readWord s.pc
    let back := s.pc + 1
    ({ s.lowered 2 with pc := target },
      (m.pushAt s.sp.toNat (Word.high back)).pushAt (s.sp.toNat - 1) (Word.low back))
  | .pullAccumulator =>
    let (v, m) := m.pullAt s.sp.toNat
    ((s.raised 1).load .a v, m)
  | .pullStatus =>
    let (v, m) := m.pullAt s.sp.toNat
    ((s.raised 1).setStatus v, m)
  | .returnFromCall =>
    let (low, m) := m.pullAt s.sp.toNat
    let (high, m) := m.pullAt (s.sp.toNat + 1)
    ({ s.raised 2 with pc := Word.ofBytes low high + 1 }, m)
  | .returnFromInterrupt =>
    let (v, m) := m.pullAt s.sp.toNat
    let (low, m) := m.pullAt (s.sp.toNat + 1)
    let (high, m) := m.pullAt (s.sp.toNat + 2)
    ({ (s.raised 3).setStatus v with pc := Word.ofBytes low high }, m)
  | _ => (s, m)

variable {s} {m : Memory} {mode : AddressingMode} {op : Operation}

theorem toNat_sp_le (hs : s.sp ≤ emptyStack) : s.sp.toNat ≤ 0x100 := UInt16.le_iff_toNat_le.1 hs

theorem toNat_sp_lowered (n : Nat) : (s.lowered n).sp.toNat = s.sp.toNat - n := by
  have := s.sp.toNat_lt
  exact UInt16.toNat_ofNat_of_lt' (by simp only [UInt16.size]; omega)

theorem toNat_offset {n : Nat} (h : n ≤ 0x100) : (UInt16.ofNat n).toNat = n :=
  UInt16.toNat_ofNat_of_lt' (by simp only [UInt16.size]; omega)

theorem toNat_sp_raised (n : Nat) : (s.raised n).sp.toNat = min (s.sp.toNat + n) 0x100 :=
  toNat_offset (Nat.min_le_right _ _)

theorem sp_sub {n k : Nat} (h : s.sp.toNat = n + k) :
    s.sp - UInt16.ofNat k = UInt16.ofNat n := by
  rw [← UInt16.ofNat_toNat (x := s.sp), h, UInt16.ofNat_add]
  exact UInt16.add_sub_cancel _ _

theorem exists_toNat_sp (h : s.sp ≠ 0) : ∃ n, s.sp.toNat = n + 1 :=
  Nat.exists_eq_succ_of_ne_zero fun h0 ↦ h (UInt16.toNat_inj.1 h0)

theorem lowered_eq_self {n : Nat} (h : s.sp.toNat - n = s.sp.toNat) : s.lowered n = s := by
  rw [lowered, h, UInt16.ofNat_toNat]

theorem raised_eq_self {n : Nat} (h : min (s.sp.toNat + n) 0x100 = s.sp.toNat) :
    s.raised n = s := by
  rw [raised, h, UInt16.ofNat_toNat]

theorem lowered_lowered (n k : Nat) : (s.lowered n).lowered k = s.lowered (n + k) := by
  rw [lowered, toNat_sp_lowered, Nat.sub_sub]
  rfl

theorem raised_raised (n k : Nat) : (s.raised n).raised k = s.raised (n + k) := by
  have h : min (min (s.sp.toNat + n) 0x100 + k) 0x100 = min (s.sp.toNat + (n + k)) 0x100 := by omega
  rw [raised, toNat_sp_raised, h]
  rfl

theorem raised_sp_le (n : Nat) : (s.raised n).sp ≤ emptyStack := by
  rw [UInt16.le_iff_toNat_le, toNat_sp_raised]
  exact Nat.min_le_right _ _

theorem blame_none : s.blame none = s := by
  rw [blame, Option.or_none]

theorem blame_blame (f g : Option StackFault) : (s.blame f).blame g = s.blame (f.or g) := by
  rw [blame, blame, blame, Option.or_assoc]

theorem run_push (v : UInt8) : (s.push v).run m =
    ((s.lowered 1).blame (StackFault.ofPushes s.sp.toNat 1), m.pushAt s.sp.toNat v) := by
  unfold push
  by_cases h : s.sp = 0
  · have hsp : s.sp.toNat = 0 := by rw [h]; rfl
    rw [if_pos h, lowered_eq_self (by omega), hsp]
    rfl
  · obtain ⟨n, hn⟩ := exists_toNat_sp h
    have hsp : s.sp - 1 = UInt16.ofNat n := sp_sub hn
    rw [if_neg h, StackFault.ofPushes, if_neg (by omega), blame_none, lowered, hn, hsp]
    rfl

theorem run_pull (hs : s.sp ≤ emptyStack) : s.pull.run m =
    (((m.pullAt s.sp.toNat).1, (s.raised 1).blame (StackFault.ofPulls s.sp.toNat 1)),
      (m.pullAt s.sp.toNat).2) := by
  have hle := toNat_sp_le hs
  unfold pull
  by_cases h : emptyStack ≤ s.sp
  · have hsp : s.sp.toNat = 0x100 := Nat.le_antisymm hle (UInt16.le_iff_toNat_le.1 h)
    rw [if_pos h, raised_eq_self (by omega), hsp]
    rfl
  · have hlt : s.sp.toNat < 0x100 := Nat.lt_of_not_le fun h' ↦ h (UInt16.le_iff_toNat_le.2 h')
    have hsp : s.sp + 1 = UInt16.ofNat (min (s.sp.toNat + 1) 0x100) := by
      rw [Nat.min_eq_left (by omega), UInt16.ofNat_add, UInt16.ofNat_toNat]
      rfl
    rw [if_neg h, StackFault.ofPulls, if_neg (by omega), blame_none, raised, Memory.pullAt,
      if_pos hlt, UInt16.ofNat_toNat, ← hsp]
    rfl

theorem run_pushWord (w : UInt16) : (s.pushWord w).run m =
    ((s.lowered 2).blame (StackFault.ofPushes s.sp.toNat 2),
      (m.pushAt s.sp.toNat (Word.high w)).pushAt (s.sp.toNat - 1) (Word.low w)) := by
  have hsp (f) : ((s.lowered 1).blame f).sp.toNat = s.sp.toNat - 1 := toNat_sp_lowered 1
  have hlowered (f) : ((s.lowered 1).blame f).lowered 1 = (s.lowered 2).blame f :=
    congrArg (blame · f) (lowered_lowered 1 1)
  simp only [pushWord, Bus.run_bind, run_push, hsp, hlowered, blame_blame, StackFault.ofPushes_or]

theorem run_pullWord (hs : s.sp ≤ emptyStack) : s.pullWord.run m =
    let (low, m) := m.pullAt s.sp.toNat
    let (high, m) := m.pullAt (s.sp.toNat + 1)
    ((Word.ofBytes low high, (s.raised 2).blame (StackFault.ofPulls s.sp.toNat 2)), m) := by
  have hsp (f) : ((s.raised 1).blame f).sp.toNat = min (s.sp.toNat + 1) 0x100 := toNat_sp_raised 1
  have hle (f) : ((s.raised 1).blame f).sp ≤ emptyStack := raised_sp_le 1
  have hraised (f) : ((s.raised 1).blame f).raised 1 = (s.raised 2).blame f :=
    congrArg (blame · f) (raised_raised 1 1)
  simp only [pullWord, Bus.run_bind, run_pull hs, run_pull (hle _), hsp, hraised, blame_blame,
    StackFault.ofPulls_or, Memory.pullAt_min, Bus.run_pure]

theorem run_fetchWord : s.fetchWord.run m =
    (((m.readWord s.pc).1, { s with pc := s.pc + 2 }), (m.readWord s.pc).2) := by
  have hpc : s.pc + 1 + 1 = s.pc + 2 := UInt16.add_assoc _ _ _
  simp only [fetchWord, Bus.run_bind, run_fetch, Bus.run_pure, Memory.readWord, hpc]

def stackFault (s : Processor) (op : Operation) : Option StackFault :=
  (StackFault.ofPushes s.sp.toNat op.pushes).or (StackFault.ofPulls s.sp.toNat op.pulls)

theorem stackFault_eq_ofPushes (hs : s.sp ≤ emptyStack) (h : op.pulls = 0) :
    s.stackFault op = StackFault.ofPushes s.sp.toNat op.pushes := by
  rw [stackFault, h, StackFault.ofPulls, Nat.add_zero,
    if_neg (Nat.not_lt.2 (toNat_sp_le hs)), Option.or_none]

theorem stackFault_eq_ofPulls (h : op.pushes = 0) :
    s.stackFault op = StackFault.ofPulls s.sp.toNat op.pulls := by
  rw [stackFault, h, StackFault.ofPushes, if_neg (Nat.not_lt_zero _), Option.none_or]

/-- A stack instruction is completed whether the stack fails it or not. -/
theorem run_perform_of_usesStack (hs : s.sp ≤ emptyStack) (hm : op = .call → mode = .absolute)
    (hu : op.usesStack = true) : (s.perform mode op).run m =
      ((s.transfer m op).1.blame (s.stackFault op), (s.transfer m op).2) := by
  cases op with
  | pushAccumulator | pushStatus =>
    rw [stackFault_eq_ofPushes hs rfl]
    exact run_push _
  | call =>
    obtain rfl := hm rfl
    have hpc : s.pc + 2 - 1 = s.pc + 1 := by
      rw [UInt16.sub_eq_add_neg, UInt16.add_assoc]
      rfl
    rw [stackFault_eq_ofPushes hs rfl]
    simp only [perform, operandAddress, Bus.run_bind, run_fetchWord, run_pushWord, hpc]
    rfl
  | pullAccumulator | pullStatus =>
    rw [stackFault_eq_ofPulls rfl]
    simp only [perform, Bus.run_bind, run_pull hs]
    rfl
  | returnFromCall =>
    rw [stackFault_eq_ofPulls rfl]
    simp only [perform, Bus.run_bind, run_pullWord hs]
    rfl
  | returnFromInterrupt =>
    -- The status is set between the pulls, which does not touch the stack.
    have hsp (f v) : (((s.raised 1).blame f).setStatus v).sp.toNat = min (s.sp.toNat + 1) 0x100 :=
      toNat_sp_raised 1
    have hle (f v) : (((s.raised 1).blame f).setStatus v).sp ≤ emptyStack := raised_sp_le 1
    have hraised (f g v) : ((((s.raised 1).blame f).setStatus v).raised 2).blame g =
        ((s.raised 3).setStatus v).blame (f.or g) := by
      rw [← blame_blame, ← raised_raised 1 2]
      rfl
    rw [stackFault_eq_ofPulls rfl]
    simp only [perform, Bus.run_bind, run_pull hs, run_pullWord (hle _ _), hsp, hraised,
      Memory.pullAt_min, Memory.pullAt_min_add, StackFault.ofPulls_or]
    rfl
  | _ => cases hu

end Processor

end Micro6502
