import Micro6502.Proofs.BoundedStack
import Micro6502.Proofs.Halting
import Micro6502.Proofs.Slice

namespace Micro6502.Processor

variable {s t : Processor} {m m' : Memory} {a : UInt16} {n : Nat}

theorem unhooked_step (h : m.Unhooked a) : (s.step m).2.2.Unhooked a := by
  rw [memory_step]
  exact Bus.unhooked_run s.execute h

theorem unhooked_runAfter (h : m.Unhooked a) (done n : Nat) :
    (runAfter done s m n).memory.Unhooked a := by
  refine memory_runAfter (P := fun m ↦ m.Unhooked a) ?_ h done n
  intro s m hm
  exact unhooked_step hm

variable (s m) in
/-- A call for which there is room, and whose return address the reader leaves alone. -/
structure Calls : Prop where
  opcode : Instruction.decode (m.read s.pc).1 = some ⟨.jsr, .absolute⟩
  sp_le : s.sp ≤ emptyStack
  room : 2 ≤ s.sp
  high : m.Unhooked (slot (s.sp - 1))
  low : m.Unhooked (slot (s.sp - 2))

def Returns (s : Processor) (m : Memory) : Prop :=
  Instruction.decode (m.read s.pc).1 = some ⟨.rts, .single⟩

structure BackBehind (s : Processor) (r : Outcome × Processor × Memory) : Prop where
  sp : r.2.1.sp = s.sp
  pc : r.2.1.pc = s.pc + 3
  outcome : r.1 = if s.pc + 3 = 0 then .halted .programEnd else .running

theorem toNat_sp_sub {k : Nat} (h : s.sp.toNat = n + k) :
    (s.sp - UInt16.ofNat k).toNat = n := by
  have hlt := s.sp.toNat_lt
  rw [sp_sub h]
  exact UInt16.toNat_ofNat_of_lt' (by simp only [UInt16.size]; omega)

theorem bytes_call (hc : s.Calls m) (hn : s.sp.toNat = n + 2) :
    (s.step m).2.1.sp = s.sp - 2 ∧
      (s.step m).2.2.stackFrom n =
        Word.low (s.pc + 2) :: Word.high (s.pc + 2) :: m.stackFrom s.sp.toNat := by
  have hle := toNat_sp_le hc.sp_le
  have hback : s.pc + 1 + 1 = s.pc + 2 := UInt16.add_assoc _ _ _
  rw [step_of_usesStack hc.sp_le hc.opcode rfl]
  constructor
  · refine Eq.trans ?_ (sp_sub hn).symm
    change UInt16.ofNat (s.sp.toNat - 2) = _
    rw [hn, Nat.add_sub_cancel]
  · let m' := ((m.read s.pc).2.readWord (s.pc + 1)).2
    have hm' : m'.stackFrom (n + 2) = m.stackFrom (n + 2) := by
      simp only [m', Memory.readWord, Memory.stackFrom_read]
    change ((m'.pushAt s.sp.toNat (Word.high (s.pc + 1 + 1))).pushAt (s.sp.toNat - 1)
      (Word.low (s.pc + 1 + 1))).stackFrom n = _
    rw [hback, hn, Nat.add_succ_sub_one, Memory.stackFrom_pushAt (by omega),
      Memory.stackFrom_pushAt (by omega), hm']

theorem step_return {low high : UInt8} {vs : List UInt8} (hr : t.Returns m')
    (hn : t.sp.toNat = n) (hle : n + 2 ≤ 0x100) (hlow : m'.Unhooked (slot (UInt16.ofNat n)))
    (hhigh : m'.Unhooked (slot (UInt16.ofNat (n + 1))))
    (hbytes : m'.stackFrom n = low :: high :: vs) :
    (t.step m').2.1.sp = UInt16.ofNat (n + 2) ∧ (t.step m').2.1.pc = Word.ofBytes low high + 1 ∧
      (t.step m').1 = (if Word.ofBytes low high + 1 = 0 then .halted .programEnd else .running) ∧
      ∀ k, (t.step m').2.2.stackFrom k = m'.stackFrom k := by
  have hs : t.sp ≤ emptyStack := UInt16.le_iff_toNat_le.2 (by
    rw [hn]
    exact Nat.le_trans (Nat.le_add_right _ _) hle)
  let m'' := (m'.read t.pc).2
  have hpull : m''.pullAt n = (low, m'') ∧ m''.pullAt (n + 1) = (high, m'') := by
    obtain ⟨hl, hh, -⟩ := (Memory.stackFrom_eq_cons_cons_iff hle).1 hbytes
    rw [Memory.pullAt_of_unhooked (by omega) (Memory.unhooked_read hlow),
      Memory.pullAt_of_unhooked (by omega) (Memory.unhooked_read hhigh), Memory.peek_read,
      Memory.peek_read, hl, hh]
    exact ⟨rfl, rfl⟩
  have htransfer : (t.step m').2 =
      ({ t.fetched.raised 2 with pc := Word.ofBytes low high + 1 }, m'') := by
    have hsp : t.fetched.sp.toNat = n := hn
    rw [step_of_usesStack hs hr rfl]
    change t.fetched.transfer m'' .returnFromCall = _
    simp only [transfer, hsp, hpull]
  have hfits : t.stackFault .returnFromCall = none := by
    rw [stackFault_eq_ofPulls rfl, StackFault.ofPulls, hn]
    exact if_neg (Nat.not_lt.2 hle)
  have houtcome := outcome_step_of_fits hs hr (Mnemonic.ne_brk_of_usesStack rfl) hfits
  rw [htransfer] at houtcome ⊢
  refine ⟨?_, rfl, houtcome, ?_⟩
  · change UInt16.ofNat (min (t.sp.toNat + 2) 0x100) = _
    rw [hn, Nat.min_eq_left hle]
  · intro k
    exact Memory.stackFrom_read _ _ _

theorem Calls.exists_sp (hc : s.Calls m) : ∃ n, s.sp.toNat = n + 2 ∧ n + 2 ≤ 0x100 := by
  have htwo : 2 ≤ s.sp.toNat := UInt16.le_iff_toNat_le.1 hc.room
  have hle := toNat_sp_le hc.sp_le
  exact ⟨s.sp.toNat - 2, by omega, by omega⟩

theorem backBehind_of_bytes {vs : List UInt8} (hc : s.Calls m) (hn : s.sp.toNat = n + 2)
    (hkept : ∀ a, m.Unhooked a → m'.Unhooked a) (hr : t.Returns m') (hsp : t.sp = s.sp - 2)
    (hbytes : m'.stackFrom n = Word.low (s.pc + 2) :: Word.high (s.pc + 2) :: vs) :
    s.BackBehind (t.step m') ∧ ∀ k, (t.step m').2.2.stackFrom k = m'.stackFrom k := by
  have hle := toNat_sp_le hc.sp_le
  have hlow : s.sp - 2 = UInt16.ofNat n := sp_sub hn
  have hhigh : s.sp - 1 = UInt16.ofNat (n + 1) := sp_sub hn
  have htn : t.sp.toNat = n := (congrArg UInt16.toNat hsp).trans (toNat_sp_sub hn)
  have hback : Word.ofBytes (Word.low (s.pc + 2)) (Word.high (s.pc + 2)) + 1 = s.pc + 3 := by
    rw [Word.ofBytes_low_high]
    exact UInt16.add_assoc _ _ _
  obtain ⟨hsp', hpc, houtcome, hstack⟩ := step_return hr htn (hn ▸ hle)
    (hlow ▸ hkept _ hc.low) (hhigh ▸ hkept _ hc.high) hbytes
  rw [hback] at hpc houtcome
  rw [← hn, UInt16.ofNat_toNat] at hsp'
  exact ⟨⟨hsp', hpc, houtcome⟩, hstack⟩

/-- Code that leaves the stack pointer and all that is on the stack as it finds them: a stretch of
instructions that does so in whatever way, or a call, such code and the return. -/
inductive GivesBack : Processor → Memory → Processor → Memory → Prop
  | run {s : Processor} {m : Memory} (n : Nat) : (s.run m n).processor.sp = s.sp →
      (s.run m n).memory.stackFrom s.sp.toNat = m.stackFrom s.sp.toNat →
      GivesBack s m (s.run m n).processor (s.run m n).memory
  | trans {s t r : Processor} {m m' m'' : Memory} :
      GivesBack s m t m' → GivesBack t m' r m'' → GivesBack s m r m''
  | call {s t : Processor} {m m' : Memory} : s.Calls m →
      GivesBack (s.step m).2.1 (s.step m).2.2 t m' → t.Returns m' →
      GivesBack s m (t.step m').2.1 (t.step m').2.2

theorem GivesBack.refl (s : Processor) (m : Memory) : GivesBack s m s m := .run 0 rfl rfl

theorem backBehind_of_stackFrom (hc : s.Calls m) (hr : t.Returns m')
    (hkept : ∀ a, m.Unhooked a → m'.Unhooked a) (hsp : t.sp = (s.step m).2.1.sp)
    (hstack : m'.stackFrom (s.step m).2.1.sp.toNat =
      (s.step m).2.2.stackFrom (s.step m).2.1.sp.toNat) :
    s.BackBehind (t.step m') ∧
      (t.step m').2.2.stackFrom s.sp.toNat = m.stackFrom s.sp.toNat := by
  obtain ⟨n, hn, hle⟩ := hc.exists_sp
  obtain ⟨hsp', hbytes⟩ := bytes_call hc hn
  have htn : (s.step m).2.1.sp.toNat = n :=
    (congrArg UInt16.toNat hsp').trans (toNat_sp_sub hn)
  rw [htn, hbytes] at hstack
  obtain ⟨hback, hkeep⟩ := backBehind_of_bytes hc hn hkept hr (hsp.trans hsp') hstack
  obtain ⟨-, -, hrest⟩ := (Memory.stackFrom_eq_cons_cons_iff hle).1 hstack
  refine ⟨hback, ?_⟩
  rw [hkeep, hn, hrest, hn]

theorem givesBack_kept (h : GivesBack s m t m') : t.sp = s.sp ∧
    m'.stackFrom s.sp.toNat = m.stackFrom s.sp.toNat ∧ ∀ a, m.Unhooked a → m'.Unhooked a := by
  induction h with
  | run n hsp hstack => exact ⟨hsp, hstack, fun a ha ↦ unhooked_runAfter ha 0 n⟩
  | trans h h' ih ih' =>
    obtain ⟨hsp, hstack, hkept⟩ := ih
    obtain ⟨hsp', hstack', hkept'⟩ := ih'
    rw [hsp] at hstack'
    exact ⟨hsp'.trans hsp, hstack'.trans hstack, fun a ha ↦ hkept' a (hkept a ha)⟩
  | call hc h hr ih =>
    -- What the body keeps includes the return address, which then comes off with the return.
    obtain ⟨hsp, hstack, hkept⟩ := ih
    obtain ⟨hback, hstack'⟩ :=
      backBehind_of_stackFrom hc hr (fun a ha ↦ hkept a (unhooked_step ha)) hsp hstack
    exact ⟨hback.sp, hstack', fun a ha ↦ unhooked_step (hkept a (unhooked_step ha))⟩

/-- A return leads behind the call if it finds the stack pointer and the two bytes that the call
pushed, and so it does in code that makes calls of its own, however deep. -/
theorem return_behind_call (hc : s.Calls m) :
    (∀ n, let r := (s.step m).2.1.run (s.step m).2.2 n
      r.processor.Returns r.memory → r.processor.sp = s.sp - 2 →
      (∀ a, a = slot (s.sp - 1) ∨ a = slot (s.sp - 2) →
        r.memory.peek a = (s.step m).2.2.peek a) →
      s.BackBehind (r.processor.step r.memory)) ∧
    ∀ t m', GivesBack (s.step m).2.1 (s.step m).2.2 t m' → t.Returns m' →
      s.BackBehind (t.step m') := by
  constructor
  · intro n r hr hsp hslots
    obtain ⟨k, hk, hle⟩ := hc.exists_sp
    obtain ⟨-, hbytes⟩ := bytes_call hc hk
    have hsub : s.sp - 1 = UInt16.ofNat (k + 1) := sp_sub hk
    have hsub' : s.sp - 2 = UInt16.ofNat k := sp_sub hk
    have hhigh := hslots _ (.inl rfl)
    have hlow := hslots _ (.inr rfl)
    rw [hsub] at hhigh
    rw [hsub'] at hlow
    have hkept (a : UInt16) (ha : m.Unhooked a) : r.memory.Unhooked a :=
      unhooked_runAfter (unhooked_step ha) 0 n
    have hfound : r.memory.stackFrom k =
        Word.low (s.pc + 2) :: Word.high (s.pc + 2) :: r.memory.stackFrom (k + 2) := by
      rw [Memory.stackFrom_eq_cons_cons_iff hle] at hbytes ⊢
      obtain ⟨hb, hb', -⟩ := hbytes
      exact ⟨hlow.trans hb, hhigh.trans hb', rfl⟩
    exact (backBehind_of_bytes hc hk hkept hr hsp hfound).1
  · intro t m' h hr
    obtain ⟨hsp, hstack, hkept⟩ := givesBack_kept h
    exact (backBehind_of_stackFrom hc hr (fun a ha ↦ hkept a (unhooked_step ha)) hsp hstack).1

theorem return_behind_call_nested :
    let s := initial 0x0600
    let m := Memory.blank.hookReads ⟨0x0600, 0x0606⟩ (.host fun asked ↦
      match asked.back? with
      | some 0x0601 => 0x03
      | some 0x0602 | some 0x0604 | some 0x0605 => 0x06
      | some 0x0606 => 0x60
      | _ => 0x20)
    let s₁ := (s.step m).2.1
    let m₁ := (s.step m).2.2
    let s₂ := (s₁.step m₁).2.1
    let m₂ := (s₁.step m₁).2.2
    let t := (s₂.step m₂).2.1
    let m' := (s₂.step m₂).2.2
    s.Calls m ∧ s₁.Calls m₁ ∧ s₂.Returns m₂ ∧ t.Returns m' ∧ s.BackBehind (t.step m') := by
  intro s m s₁ m₁ s₂ m₂ t m'
  have hc : s.Calls m := ⟨by decide +kernel, by decide, by decide,
    Memory.unhooked_hookReads (by decide), Memory.unhooked_hookReads (by decide)⟩
  have hc₁ : s₁.Calls m₁ := ⟨by decide +kernel, by decide +kernel, by decide +kernel,
    unhooked_step (Memory.unhooked_hookReads (by decide +kernel)),
    unhooked_step (Memory.unhooked_hookReads (by decide +kernel))⟩
  have hr₂ : s₂.Returns m₂ := by
    unfold Returns
    decide +kernel
  have hr : t.Returns m' := by
    unfold Returns
    decide +kernel
  have hinner : GivesBack s₁ m₁ t m' := .call hc₁ (.refl s₂ m₂) hr₂
  exact ⟨hc, hc₁, hr₂, hr, (return_behind_call hc).2 t m' hinner hr⟩

end Micro6502.Processor
