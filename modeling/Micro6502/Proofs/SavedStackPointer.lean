import Micro6502.Proofs.RegisterFile
import Micro6502.Scheduler

namespace Micro6502.Processor

variable {s t : Processor} {m : Memory}

theorem toUInt16_toUInt8 {n : UInt16} (h : n < emptyStack) : n.toUInt8.toUInt16 = n := by
  have hn : n.toNat < 0x100 := UInt16.lt_iff_toNat_lt.1 h
  apply UInt16.toNat_inj.1
  rw [UInt8.toNat_toUInt16, UInt16.toNat_toUInt8]
  exact Nat.mod_eq_of_lt hn

theorem x_step_tsx (hd : Instruction.decode (m.read s.pc).1 = some ⟨.tsx, .single⟩) :
    (s.step m).2.1.x = s.sp.toUInt8 := by
  rw [step_of_some hd nofun]
  rfl

theorem stackView_step_txs (hd : Instruction.decode (m.read s.pc).1 = some ⟨.txs, .single⟩) :
    (s.step m).2.1.stackView = (s.x.toUInt16, none) := by
  rw [step_of_some hd nofun]
  rfl

variable (s t) in
/-- Pushes and pulls find the same stack, or fail alike. -/
structure StackAlike : Prop where
  sp : t.sp = s.sp
  push : ∀ v m, ((t.push v).run m).1.stackView = ((s.push v).run m).1.stackView ∧
    ((t.push v).run m).2 = ((s.push v).run m).2
  pull : ∀ m, (t.pull.run m).1.1 = (s.pull.run m).1.1 ∧
    (t.pull.run m).1.2.stackView = (s.pull.run m).1.2.stackView ∧
    (t.pull.run m).2 = (s.pull.run m).2

theorem stackAlike (h : t.stackView = s.stackView) : s.StackAlike t := by
  obtain ⟨hsp, hfault⟩ := Prod.mk.inj h
  refine ⟨hsp, ?_, ?_⟩
  · intro v m
    rw [run_push, run_push, hsp]
    refine ⟨?_, rfl⟩
    simp only [stackView, lowered, blame, hsp, hfault]
  · intro m
    unfold pull
    rw [hsp]
    split
    · refine ⟨rfl, ?_, rfl⟩
      simp only [stackView, recordFault, Bus.run_pure, hsp, hfault]
    · refine ⟨rfl, ?_, rfl⟩
      simp only [stackView, Bus.run_bind, Bus.run_pure, hfault]

/-- A stack that is not empty is found again. An empty one is taken for a full one. -/
theorem stack_restored (origin : UInt16) (as : List Action) (m : Memory) (n : Nat) :
    let s := (initial origin).after as
    let r := (s.step m).2.1.run (s.step m).2.2 n
    let t := (r.processor.step r.memory).2.1
    Instruction.decode (m.read s.pc).1 = some ⟨.tsx, .single⟩ →
    Instruction.decode (r.memory.read r.processor.pc).1 = some ⟨.txs, .single⟩ →
    r.processor.x = (s.step m).2.1.x →
    (s.sp ≠ emptyStack → s.StackAlike t) ∧ (s.sp = emptyStack → t.sp = 0) := by
  intro s r t hsave hrestore hx
  have hs := wellFormed_after (wellFormed_initial origin) as
  have ht : t.stackView = (s.sp.toUInt8.toUInt16, none) := by
    rw [← x_step_tsx hsave, ← hx]
    exact stackView_step_txs hrestore
  constructor
  · intro hne
    have hlt : s.sp < emptyStack := UInt16.lt_of_le_of_ne hs.sp_le hne
    rw [toUInt16_toUInt8 hlt, ← hs.fault_none] at ht
    exact stackAlike ht
  · intro hempty
    obtain ⟨hsp, -⟩ := Prod.mk.inj ht
    rw [hsp, hempty]
    rfl

attribute [local irreducible] step in
theorem stack_restored_pushed :
    let m := Memory.blank.hookReads ⟨0x0600, 0x0602⟩ (.host fun asked ↦
      match asked.back? with
      | some 0x0600 => 0xBA
      | some 0x0601 => 0x48
      | _ => 0x9A)
    let s := (initial 0x0600).after [.setStackPointer 0x80]
    let r := (s.step m).2.1.run (s.step m).2.2 1
    let t := (r.processor.step r.memory).2.1
    r.processor.sp = 0x7F ∧ s.StackAlike t := by
  intro m s r t
  have hsave : Instruction.decode (m.read s.pc).1 = some ⟨.tsx, .single⟩ := by decide +kernel
  have hrestore : Instruction.decode (r.memory.read r.processor.pc).1 = some ⟨.txs, .single⟩ := by
    decide +kernel
  have hx : r.processor.x = (s.step m).2.1.x := by decide +kernel
  have hne : s.sp ≠ emptyStack := by decide
  have hrestored := stack_restored 0x0600 [.setStackPointer 0x80] m 1 hsave hrestore hx
  exact ⟨by decide +kernel, hrestored.1 hne⟩

/-- A stack that is empty when it is saved is full when it is taken back. -/
theorem empty_stack_not_restored :
    let m := Memory.blank.load 0x0600 [0xBA, 0x9A]
    let s := (initial 0x0600).after []
    let r := (s.step m).2.1.run (s.step m).2.2 0
    let t := (r.processor.step r.memory).2.1
    Instruction.decode (m.read s.pc).1 = some ⟨.tsx, .single⟩ ∧
      Instruction.decode (r.memory.read r.processor.pc).1 = some ⟨.txs, .single⟩ ∧
      r.processor.x = (s.step m).2.1.x ∧ s.sp = 0x100 ∧ t.sp = 0 := by
  decide +kernel

end Micro6502.Processor
