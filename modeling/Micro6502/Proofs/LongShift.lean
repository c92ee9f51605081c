import Micro6502.Proofs.CarryChain
import Micro6502.Proofs.Subroutine

namespace Micro6502

namespace Shift

variable {k : Shift}

def mnemonic : Shift → Mnemonic
  | asl => .asl
  | lsr => .lsr
  | rol => .rol
  | ror => .ror

theorem operation_mnemonic (k : Shift) : k.mnemonic.operation = .shift k := by
  cases k <;> rfl

def rotates : Shift → Bool
  | asl | lsr => false
  | rol | ror => true

theorem toNat_low (c : Bool) : (if c then 0x01 else 0 : UInt8).toNat = c.toNat := by
  cases c <;> rfl

theorem toNat_high (c : Bool) : (if c then 0x80 else 0 : UInt8).toNat = c.toNat <<< 7 := by
  cases c <;> rfl

theorem toNat_shiftLeft_or (v : UInt8) (c : Bool) :
    (v <<< 1 ||| (if c then 0x01 else 0)).toNat = 2 * (v.toNat % 128) + c.toNat := by
  have hshift : (v <<< 1).toNat = v.toNat <<< 1 % 256 := UInt8.toNat_shiftLeft v 1
  have hv : (v <<< 1).toNat = (v.toNat % 128) <<< 1 := by
    rw [Nat.shiftLeft_eq] at hshift ⊢
    omega
  have hc : c.toNat < 2 ^ 1 := Bool.toNat_lt c
  rw [UInt8.toNat_or, toNat_low, hv, ← Nat.shiftLeft_add_eq_or_of_lt hc, Nat.shiftLeft_eq]
  omega

theorem toNat_shiftRight_or (v : UInt8) (c : Bool) :
    (v >>> 1 ||| (if c then 0x80 else 0)).toNat = v.toNat / 2 + 128 * c.toNat := by
  have hlt := v.toNat_lt
  have hv : (v >>> 1).toNat = v.toNat / 2 := by
    have hshift : (v >>> 1).toNat = v.toNat >>> 1 := UInt8.toNat_shiftRight v 1
    rw [hshift, Nat.shiftRight_eq_div_pow, Nat.pow_one]
  have hlow : v.toNat / 2 < 2 ^ 7 := by omega
  rw [UInt8.toNat_or, toNat_high, hv, Nat.or_comm, ← Nat.shiftLeft_add_eq_or_of_lt hlow,
    Nat.shiftLeft_eq]
  omega

theorem toNat_bit_seven (v : UInt8) : (v &&& 0x80 != 0).toNat = v.toNat / 128 := by
  have hlt := v.toNat_lt
  by_cases h : v &&& 0x80 = 0
  · have hbelow := (Sum.and_sign_eq_zero_iff v).1 h
    rw [bne_eq_false_iff_eq.2 h, Bool.toNat_false]
    omega
  · have habove := (Sum.and_sign_eq_zero_iff v).not.1 h
    rw [bne_iff_ne.2 h, Bool.toNat_true]
    omega

theorem toNat_bit_zero (v : UInt8) : (v &&& 0x01 != 0).toNat = v.toNat % 2 := by
  have hand : (v &&& 0x01).toNat = v.toNat % 2 := by
    rw [UInt8.toNat_and]
    exact Nat.and_one_is_mod v.toNat
  by_cases h : v &&& 0x01 = 0
  · rw [bne_eq_false_iff_eq.2 h, Bool.toNat_false, ← hand, h]
    rfl
  · have hne : (v &&& 0x01).toNat ≠ 0 := fun h0 ↦ h (UInt8.toNat_inj.1 h0)
    rw [bne_iff_ne.2 h, Bool.toNat_true]
    omega

theorem rol_total (v : UInt8) (c : Bool) :
    (rol.apply v c).1.toNat + 256 * (rol.apply v c).2.toNat = 2 * v.toNat + c.toNat := by
  rw [apply, toNat_shiftLeft_or, toNat_bit_seven]
  omega

theorem ror_total (v : UInt8) (c : Bool) :
    2 * (ror.apply v c).1.toNat + (ror.apply v c).2.toNat = v.toNat + 256 * c.toNat := by
  rw [apply, toNat_shiftRight_or, toNat_bit_zero]
  omega

theorem apply_asl (v : UInt8) (c : Bool) : asl.apply v c = rol.apply v false := by
  simp [apply]

theorem apply_lsr (v : UInt8) (c : Bool) : lsr.apply v c = ror.apply v false := by
  simp [apply]

theorem apply_left (hk : k = asl ∨ k = rol) (v : UInt8) (c : Bool) :
    (k.apply v c).1.toNat + 256 * (k.apply v c).2.toNat = 2 * v.toNat + (k.rotates && c).toNat := by
  rcases hk with rfl | rfl
  · rw [apply_asl]
    exact rol_total v false
  · exact rol_total v c

theorem apply_right (hk : k = lsr ∨ k = ror) (v : UInt8) (c : Bool) :
    2 * (k.apply v c).1.toNat + (k.apply v c).2.toNat = v.toNat + 256 * (k.rotates && c).toNat := by
  rcases hk with rfl | rfl
  · rw [apply_lsr]
    exact ror_total v false
  · exact ror_total v c

end Shift

theorem Instruction.mode_opcodes_shift :
    ∀ p ∈ opcodes, p.2.mnemonic ∈ [Mnemonic.asl, .lsr, .rol, .ror] →
      p.2.mode ∈ [AddressingMode.single, .zeroPage, .zeroPageX, .absolute, .absoluteX] := by
  decide +kernel

theorem Instruction.mode_of_shift {opcode : UInt8} {k : Shift} {mode : AddressingMode}
    (h : decode opcode = some ⟨k.mnemonic, mode⟩) :
    mode ∈ [AddressingMode.single, .zeroPage, .zeroPageX, .absolute, .absoluteX] := by
  have hk : k.mnemonic ∈ [Mnemonic.asl, .lsr, .rol, .ror] := by cases k <;> decide
  exact mode_opcodes_shift _ (mem_opcodes (decode_eq_some_iff.1 h)) hk

namespace Memory

def number (m : Memory) (as : List UInt16) : Nat := LittleEndian.value (as.map m.peek)

variable {m m' : Memory} {a : UInt16} {as : List UInt16}

@[simp] theorem number_nil (m : Memory) : m.number [] = 0 := rfl

theorem number_cons (m : Memory) (a : UInt16) (as : List UInt16) :
    m.number (a :: as) = (m.peek a).toNat + 256 * m.number as := LittleEndian.value_cons _ _

theorem number_reverse_cons (m : Memory) (a : UInt16) (as : List UInt16) :
    m.number (a :: as).reverse = m.number as.reverse + 256 ^ as.length * (m.peek a).toNat := by
  rw [number, number, LittleEndian.value, LittleEndian.value, List.reverse_cons, List.map_append,
    List.map_append, Nat.ofDigits_append]
  simp

theorem number_congr (h : ∀ a ∈ as, m.peek a = m'.peek a) : m.number as = m'.number as :=
  congrArg LittleEndian.value (List.map_congr_left h)

theorem number_lt (m : Memory) (as : List UInt16) : m.number as < 256 ^ as.length := by
  simpa [number] using LittleEndian.value_lt (as.map m.peek)

end Memory

namespace Processor

variable {s t : Processor} {m : Memory} {mode : AddressingMode} {k : Shift} {a b : UInt16}
  {v : UInt8} {c : Bool}

/-- The byte that a shift makes of another one, and the flags that it leaves. -/
structure Shifts (t : Processor) (k : Shift) (v : UInt8) (c : Bool) (r : UInt8) : Prop where
  byte : r = (k.apply v c).1
  carry : t.flag .carry = (k.apply v c).2
  signs : t.Signs r

theorem shifts_setZeroNegative (s : Processor) (k : Shift) (v : UInt8) (c : Bool) :
    ((s.setFlag .carry (k.apply v c).2).setZeroNegative (k.apply v c).1).Shifts k v c
      (k.apply v c).1 := by
  refine ⟨rfl, ?_, signs_setZeroNegative _ _⟩
  rw [setZeroNegative, flag_setFlag_of_ne (by decide) (by decide),
    flag_setFlag_of_ne (by decide) (by decide), flag_setFlag_self (by decide)]

theorem Shifts.forget {r : UInt8} (h : t.Shifts k v c r) :
    ({ t with fault := none } : Processor).Shifts k v c r :=
  ⟨h.byte, h.carry, h.signs.zero, h.signs.negative⟩

theorem value_modify (h : mode ≠ .immediate) (f : UInt8 → UInt8) :
    ((s.modify mode f).run m).1.1 = s.targetByte m mode := by
  simp only [modify, Bus.run_bind, Bus.run_get, Bus.run_put, Bus.run_pure, run_operandAddress,
    memory_operandAddress h]
  rfl

theorem targetByte_of_unhooked (h : mode ≠ .immediate) (hu : m.Unhooked (s.target m mode)) :
    s.targetByte m mode = m.peek (s.target m mode) := by
  rw [targetByte, ← memory_operandAddress h, Memory.read_of_unhooked (Bus.unhooked_run _ hu),
    Bus.peek_run, writes_operandAddress]
  rfl

theorem shifts_accumulator (k : Shift) :
    let t := ((s.perform .single (.shift k)).run m).1
    t.Shifts k s.a (s.flag .carry) t.a := shifts_setZeroNegative _ k s.a (s.flag .carry)

theorem shifts_memory (hs : mode ≠ .single) (hi : mode ≠ .immediate)
    (hu : m.Unhooked (s.target m mode)) (k : Shift) :
    let p := (s.perform mode (.shift k)).run m
    p.1.Shifts k (m.peek (s.target m mode)) (s.flag .carry) (p.2.peek (s.target m mode)) := by
  have hv : ((s.modify mode fun v ↦ (k.apply v (s.flag .carry)).1).run m).1.1 =
      m.peek (s.target m mode) := by
    rw [value_modify hi, targetByte_of_unhooked hi hu]
  simp only [perform, shift, if_neg hs, Bus.run_bind, Bus.run_pure, peek_modify, hv]
  exact shifts_setZeroNegative _ k _ _

theorem peek_shift_of_ne (hs : mode ≠ .single) (hi : mode ≠ .immediate) (hb : b ≠ s.target m mode)
    (k : Shift) : ((s.perform mode (.shift k)).run m).2.peek b = m.peek b := by
  rw [Bus.peek_run, writes_shift hi, if_neg hs, latest?_eq_none (by simpa using hb)]
  rfl

def ShiftsByte (s : Processor) (m : Memory) (k : Shift) (a : UInt16) : Prop :=
  ∃ mode ≠ .single, Instruction.decode (m.read s.pc).1 = some ⟨k.mnemonic, mode⟩ ∧
    s.fetched.target (m.read s.pc).2 mode = a

def ShiftsAccumulator (s : Processor) (m : Memory) (k : Shift) : Prop :=
  Instruction.decode (m.read s.pc).1 = some ⟨k.mnemonic, .single⟩

theorem state_step_shift (h : Instruction.decode (m.read s.pc).1 = some ⟨k.mnemonic, mode⟩) :
    (s.step m).2 =
      let p := (s.fetched.perform mode (.shift k)).run (m.read s.pc).2
      ({ p.1 with fault := none }, p.2) := by
  rw [state_step h, Shift.operation_mnemonic]

theorem ne_immediate_of_shift {opcode : UInt8}
    (h : Instruction.decode opcode = some ⟨k.mnemonic, mode⟩) : mode ≠ .immediate := by
  rintro rfl
  exact absurd (Instruction.mode_of_shift h) (by decide)

theorem ShiftsAccumulator.shifts (h : s.ShiftsAccumulator m k) :
    (s.step m).2.1.Shifts k s.a (s.flag .carry) (s.step m).2.1.a := by
  rw [state_step_shift h]
  exact (shifts_accumulator (s := s.fetched) k).forget

theorem ShiftsByte.shifts (h : s.ShiftsByte m k a) (hu : m.Unhooked a) :
    (s.step m).2.1.Shifts k (m.peek a) (s.flag .carry) ((s.step m).2.2.peek a) := by
  obtain ⟨mode, hs, hd, rfl⟩ := h
  have hbyte := shifts_memory hs (ne_immediate_of_shift hd) (Memory.unhooked_read hu) k
  rw [Memory.peek_read] at hbyte
  rw [state_step_shift hd]
  exact hbyte.forget

theorem ShiftsByte.peek_of_ne (h : s.ShiftsByte m k a) (hb : b ≠ a) :
    (s.step m).2.2.peek b = m.peek b := by
  obtain ⟨mode, hs, hd, rfl⟩ := h
  rw [state_step_shift hd]
  exact (peek_shift_of_ne hs (ne_immediate_of_shift hd) hb k).trans Memory.peek_read

-- What an instruction does has been said above, and is too much to unfold.
attribute [local irreducible] step

variable (as : List UInt16) in
/-- Shifts of bytes of memory, executed one after the other. What is executed in between leaves the
carry and the bytes at the given addresses as they are. -/
inductive ShiftRun : List (Shift × UInt16) → Processor × Memory → Processor × Memory → Prop
  | done (p : Processor × Memory) : ShiftRun [] p p
  | shift {k : Shift} {a : UInt16} {ops : List (Shift × UInt16)} {p q : Processor × Memory}
      (h : p.1.ShiftsByte p.2 k a) (hrest : ShiftRun ops (next p) q) : ShiftRun ((k, a) :: ops) p q
  | delay {ops : List (Shift × UInt16)} {p q : Processor × Memory}
      (hcarry : (next p).1.flag .carry = p.1.flag .carry)
      (hbytes : ∀ a ∈ as, (next p).2.peek a = p.2.peek a) (hrest : ShiftRun ops (next p) q) :
      ShiftRun ops p q

variable {as all : List UInt16} {ops ops' : List (Shift × UInt16)} {p q : Processor × Memory}

theorem unhooked_next (h : p.2.Unhooked a) : (next p).2.Unhooked a := unhooked_step h

theorem ShiftRun.unhooked (h : ShiftRun all ops p q) (hu : p.2.Unhooked a) : q.2.Unhooked a := by
  induction h with
  | done p => exact hu
  | shift h hrest ih => exact ih (unhooked_next hu)
  | delay hcarry hbytes hrest ih => exact ih (unhooked_next hu)

theorem ShiftRun.peek_of_not_mem (h : ShiftRun all ops p q) (ha : a ∈ all)
    (hops : a ∉ ops.map Prod.snd) : q.2.peek a = p.2.peek a := by
  induction h with
  | done p => rfl
  | shift h hrest ih =>
    rw [List.map_cons, List.mem_cons, not_or] at hops
    exact (ih hops.2).trans (h.peek_of_ne hops.1)
  | delay hcarry hbytes hrest ih => exact (ih hops).trans (hbytes a ha)

theorem ShiftRun.of_nil (h : ShiftRun all [] p q) : q.1.flag .carry = p.1.flag .carry := by
  generalize hnil : ([] : List (Shift × UInt16)) = ops at h
  induction h with
  | done p => rfl
  | shift h hrest ih => cases hnil
  | delay hcarry hbytes hrest ih => exact (ih hnil).trans hcarry

theorem ShiftRun.of_cons (h : ShiftRun all ((k, a) :: ops) p q) (ha : a ∈ all)
    (hu : p.2.Unhooked a) : ∃ p', ShiftRun all ops p' q ∧
      p'.1.Shifts k (p.2.peek a) (p.1.flag .carry) (p'.2.peek a) ∧
      (∀ b ∈ all, b ≠ a → p'.2.peek b = p.2.peek b) ∧
      ∀ b, p.2.Unhooked b → p'.2.Unhooked b := by
  generalize hcons : (k, a) :: ops = l at h
  induction h with
  | done p => cases hcons
  | shift h hrest ih =>
    cases hcons
    exact ⟨_, hrest, h.shifts hu, fun b _ hb ↦ h.peek_of_ne hb, fun b hb ↦ unhooked_next hb⟩
  | delay hcarry hbytes hrest ih =>
    -- A step in between hands the carry and the bytes on to the shift as they were.
    obtain ⟨p', hrun, hshift, hkept, hunhooked⟩ := ih (unhooked_next hu) hcons
    rw [hcarry, hbytes a ha] at hshift
    exact ⟨p', hrun, hshift, fun b hb hne ↦ (hkept b hb hne).trans (hbytes b hb),
      fun b hb ↦ hunhooked b (unhooked_next hb)⟩

theorem ShiftRun.of_append (h : ShiftRun all (ops ++ ops') p q) :
    ∃ r, ShiftRun all ops p r ∧ ShiftRun all ops' r q := by
  generalize happend : ops ++ ops' = l at h
  induction h generalizing ops with
  | done p =>
    obtain ⟨rfl, rfl⟩ := List.append_eq_nil_iff.1 happend
    exact ⟨p, .done p, .done p⟩
  | @shift k a rest p q h hrest ih =>
    cases ops with
    | nil =>
      rw [List.nil_append] at happend
      exact ⟨p, .done p, happend ▸ .shift h hrest⟩
    | cons op ops =>
      obtain ⟨rfl, hops⟩ := List.cons_eq_cons.1 happend
      obtain ⟨r, hfirst, hsecond⟩ := ih hops
      exact ⟨r, .shift h hfirst, hsecond⟩
  | delay hcarry hbytes hrest ih =>
    obtain ⟨r, hfirst, hsecond⟩ := ih happend
    exact ⟨r, .delay hcarry hbytes hfirst, hsecond⟩

/-- Some of the addresses of a number, all different and without a reader. -/
structure Apart (m : Memory) (all as : List UInt16) : Prop where
  nodup : as.Nodup
  mem : ∀ b ∈ as, b ∈ all
  unhooked : ∀ b ∈ as, m.Unhooked b

theorem Apart.tail (h : Apart m all (a :: as)) : Apart m all as :=
  ⟨h.nodup.of_cons, fun b hb ↦ h.mem b (List.mem_cons_of_mem a hb),
    fun b hb ↦ h.unhooked b (List.mem_cons_of_mem a hb)⟩

theorem Apart.of_unhooked {m' : Memory} (h : Apart m all as)
    (hu : ∀ b, m.Unhooked b → m'.Unhooked b) : Apart m' all as :=
  ⟨h.nodup, h.mem, fun b hb ↦ hu b (h.unhooked b hb)⟩

theorem Apart.reverse (h : Apart m all as) : Apart m all as.reverse :=
  ⟨List.nodup_reverse.2 h.nodup, fun b hb ↦ h.mem b (List.mem_reverse.1 hb),
    fun b hb ↦ h.unhooked b (List.mem_reverse.1 hb)⟩

/-- The first shift of a row leaves its byte for good, and the others find theirs as they were. -/
theorem ShiftRun.first {k' : Shift} (h : ShiftRun all ((k, a) :: as.map (Prod.mk k')) p q)
    (hp : Apart p.2 all (a :: as)) : ∃ p', ShiftRun all (as.map (Prod.mk k')) p' q ∧
      Apart p'.2 all as ∧ p'.1.Shifts k (p.2.peek a) (p.1.flag .carry) (q.2.peek a) ∧
      ∀ b ∈ as, p'.2.peek b = p.2.peek b := by
  have hmem := hp.mem a List.mem_cons_self
  have hnot : a ∉ as := (List.nodup_cons.1 hp.nodup).1
  obtain ⟨p', hrun, hshift, hkept, hunhooked⟩ :=
    h.of_cons hmem (hp.unhooked a List.mem_cons_self)
  have hbyte : q.2.peek a = p'.2.peek a := by
    apply hrun.peek_of_not_mem hmem
    simpa using hnot
  refine ⟨p', hrun, hp.tail.of_unhooked hunhooked, hbyte ▸ hshift, fun b hb ↦ ?_⟩
  exact hkept b (hp.tail.mem b hb) (ne_of_mem_of_not_mem hb hnot)

theorem ShiftRun.left_cons (hk : k = .asl ∨ k = .rol)
    (h : ShiftRun all ((k, a) :: as.map (Prod.mk .rol)) p q) (hp : Apart p.2 all (a :: as))
    (ih : ∀ p', Apart p'.2 all as → ShiftRun all (as.map (Prod.mk .rol)) p' q →
      q.2.number as + 256 ^ as.length * (q.1.flag .carry).toNat =
        2 * p'.2.number as + (p'.1.flag .carry).toNat) :
    q.2.number (a :: as) + 256 ^ (a :: as).length * (q.1.flag .carry).toNat =
      2 * p.2.number (a :: as) + (k.rotates && p.1.flag .carry).toNat := by
  obtain ⟨p', hrun, hp', hshift, hkept⟩ := h.first hp
  have hrest := ih p' hp' hrun
  have hbyte := Shift.apply_left hk (p.2.peek a) (p.1.flag .carry)
  rw [← hshift.byte, ← hshift.carry] at hbyte
  rw [Memory.number_congr hkept] at hrest
  rw [Memory.number_cons, Memory.number_cons, List.length_cons, Nat.pow_succ, Nat.mul_right_comm]
  omega

theorem ShiftRun.right_cons (hk : k = .lsr ∨ k = .ror)
    (h : ShiftRun all ((k, a) :: as.map (Prod.mk .ror)) p q) (hp : Apart p.2 all (a :: as))
    (ih : ∀ p', Apart p'.2 all as → ShiftRun all (as.map (Prod.mk .ror)) p' q →
      2 * q.2.number as.reverse + (q.1.flag .carry).toNat =
        p'.2.number as.reverse + 256 ^ as.length * (p'.1.flag .carry).toNat) :
    2 * q.2.number (a :: as).reverse + (q.1.flag .carry).toNat =
      p.2.number (a :: as).reverse +
        256 ^ (a :: as).length * (k.rotates && p.1.flag .carry).toNat := by
  obtain ⟨p', hrun, hp', hshift, hkept⟩ := h.first hp
  have hrest := ih p' hp' hrun
  have hbyte := Shift.apply_right hk (p.2.peek a) (p.1.flag .carry)
  rw [← hshift.byte, ← hshift.carry] at hbyte
  -- The first byte of a row to the right stands above all the others.
  have hscaled := congrArg (256 ^ as.length * ·) hbyte
  rw [Memory.number_congr fun b hb ↦ hkept b (List.mem_reverse.1 hb)] at hrest
  rw [Memory.number_reverse_cons, Memory.number_reverse_cons, List.length_cons, Nat.pow_succ]
  linarith

theorem ShiftRun.rol (h : ShiftRun all (as.map (Prod.mk .rol)) p q) (hp : Apart p.2 all as) :
    q.2.number as + 256 ^ as.length * (q.1.flag .carry).toNat =
      2 * p.2.number as + (p.1.flag .carry).toNat := by
  induction as generalizing p with
  | nil => simp [h.of_nil]
  | cons a as ih => exact h.left_cons (.inr rfl) hp fun p' hp' hrun ↦ ih hrun hp'

theorem ShiftRun.ror (h : ShiftRun all (as.map (Prod.mk .ror)) p q) (hp : Apart p.2 all as) :
    2 * q.2.number as.reverse + (q.1.flag .carry).toNat =
      p.2.number as.reverse + 256 ^ as.length * (p.1.flag .carry).toNat := by
  induction as generalizing p with
  | nil => simp [h.of_nil]
  | cons a as ih => exact h.right_cons (.inr rfl) hp fun p' hp' hrun ↦ ih hrun hp'

def row (first rest : Shift) : List UInt16 → List (Shift × UInt16)
  | [] => []
  | a :: as => (first, a) :: as.map (Prod.mk rest)

theorem ShiftRun.row_left (hk : k = .asl ∨ k = .rol) (hne : as ≠ [])
    (h : ShiftRun all (row k .rol as) p q) (hp : Apart p.2 all as) :
    q.2.number as + 256 ^ as.length * (q.1.flag .carry).toNat =
      2 * p.2.number as + (k.rotates && p.1.flag .carry).toNat := by
  obtain ⟨a, as, rfl⟩ := List.exists_cons_of_ne_nil hne
  exact h.left_cons hk hp fun p' hp' hrun ↦ hrun.rol hp'

theorem ShiftRun.row_right (hk : k = .lsr ∨ k = .ror) (hne : as ≠ [])
    (h : ShiftRun all (row k .ror as.reverse) p q) (hp : Apart p.2 all as) :
    2 * q.2.number as + (q.1.flag .carry).toNat =
      p.2.number as + 256 ^ as.length * (k.rotates && p.1.flag .carry).toNat := by
  obtain ⟨bs, rfl⟩ : ∃ bs, as = bs.reverse := ⟨as.reverse, as.reverse_reverse.symm⟩
  have hdown := hp.reverse
  rw [List.reverse_reverse] at h hdown
  obtain ⟨b, bs, rfl⟩ := List.exists_cons_of_ne_nil (List.reverse_ne_nil_iff.1 hne)
  rw [List.length_reverse]
  exact h.right_cons hk hdown fun p' hp' hrun ↦ hrun.ror hp'

/-- Shifts of bytes of memory that stand from an address on, one behind the other, for a processor
with the X that they find. The code is apart from the bytes of the number, and without a reader. -/
inductive Stored (s : Processor) (m : Memory) (as : List UInt16) :
    UInt16 → List (Shift × UInt16) → Prop
  | done (pc : UInt16) : Stored s m as pc []
  | shift {k : Shift} {a pc : UInt16} {mode : AddressingMode} {ops : List (Shift × UInt16)}
      (hopcode : Instruction.decode (m.peek pc) = some ⟨k.mnemonic, mode⟩) (hmode : mode ≠ .single)
      (htarget : ({ s with pc := pc + 1 } : Processor).target m mode = a)
      (hcode : ∀ b ∈ pc :: addressesFrom (pc + 1) mode.operandSize, b ∉ as ∧ m.Unhooked b)
      (hrest : Stored s m as (pc + UInt16.ofNat mode.instructionSize) ops) :
      Stored s m as pc ((k, a) :: ops)

theorem readAll_of_unhooked {bs : List UInt16} (h : ∀ b ∈ bs, m.Unhooked b) :
    m.readAll bs = (bs.map m.peek, m) := by
  induction bs with
  | nil => rfl
  | cons b bs ih =>
    obtain ⟨hb, hbs⟩ := List.forall_mem_cons.1 h
    rw [Memory.readAll, Memory.read_of_unhooked hb]
    simp only [ih hbs, List.map_cons]

theorem target_congr {m' : Memory} {opcode : UInt8}
    (h : Instruction.decode opcode = some ⟨k.mnemonic, mode⟩) (hs : mode ≠ .single)
    (hx : t.x = s.x) (hpc : t.pc = s.pc)
    (hu : ∀ b ∈ addressesFrom s.pc mode.operandSize, m.Unhooked b ∧ m'.Unhooked b)
    (hpeek : ∀ b ∈ addressesFrom s.pc mode.operandSize, m'.peek b = m.peek b) :
    t.target m' mode = s.target m mode := by
  have hmodes := Instruction.mode_of_shift h
  have hread := readAll_of_unhooked fun b hb ↦ (hu b hb).1
  have hread' := readAll_of_unhooked fun b hb ↦ (hu b hb).2
  rw [List.map_congr_left hpeek] at hread'
  simp only [target, hpc, hread, hread']
  simp only [List.mem_cons, List.not_mem_nil, or_false] at hmodes
  rcases hmodes with rfl | rfl | rfl | rfl | rfl
  · exact absurd rfl hs
  · rfl
  · simp only [AddressingMode.operandSize, addressesFrom, List.map_cons, List.map_nil,
      effectiveAddress, hx]
  · rfl
  · simp only [AddressingMode.operandSize, addressesFrom, List.map_cons, List.map_nil,
      effectiveAddress, hx]

theorem Stored.congr {pc : UInt16} {m' : Memory} (hx : t.x = s.x)
    (hpeek : ∀ b ∉ as, m'.peek b = m.peek b) (hu : ∀ b, m.Unhooked b → m'.Unhooked b)
    (h : Stored s m as pc ops) : Stored t m' as pc ops := by
  induction h with
  | done pc => exact .done pc
  | shift hopcode hmode htarget hcode hrest ih =>
    obtain ⟨⟨hpc, -⟩, hoperand⟩ := List.forall_mem_cons.1 hcode
    refine .shift ((hpeek _ hpc).symm ▸ hopcode) hmode ?_
      (fun b hb ↦ ⟨(hcode b hb).1, hu b (hcode b hb).2⟩) ih
    rw [← htarget]
    exact target_congr hopcode hmode hx rfl
      (fun b hb ↦ ⟨(hoperand b hb).2, hu b (hoperand b hb).2⟩)
      (fun b hb ↦ hpeek b (hoperand b hb).1)

theorem Stored.of_cons (h : Stored s m as s.pc ((k, a) :: ops)) (ha : a ∈ as) :
    s.ShiftsByte m k a ∧ Stored (s.step m).2.1 (s.step m).2.2 as (s.step m).2.1.pc ops := by
  cases h with
  | @shift _ _ _ mode _ hopcode hmode htarget hcode hrest =>
    obtain ⟨⟨-, hpc⟩, hoperand⟩ := List.forall_mem_cons.1 hcode
    have hread := Memory.read_of_unhooked hpc
    have hd : Instruction.decode (m.read s.pc).1 = some ⟨k.mnemonic, mode⟩ := by
      rw [hread]
      exact hopcode
    have hshift : s.ShiftsByte m k a := by
      refine ⟨mode, hmode, hd, ?_⟩
      rw [hread]
      exact htarget
    have hx : (s.step m).2.1.x = s.x := by
      have hr : (Operation.shift k).register? mode ≠ some .x := by
        rw [Operation.register?, if_neg hmode]
        exact (Option.some_ne_none _).symm
      rw [state_step_shift hd]
      exact register_perform (s := s.fetched) hr
    have hbehind : (s.step m).2.1.pc = s.pc + UInt16.ofNat mode.instructionSize := by
      refine pc_step_sequential (i := ⟨k.mnemonic, mode⟩) hd ?_
      rw [Shift.operation_mnemonic]
      rfl
    refine ⟨hshift, hbehind ▸ hrest.congr hx ?_ fun b hb ↦ unhooked_step hb⟩
    intro b hb
    exact hshift.peek_of_ne (ne_of_mem_of_not_mem ha hb).symm

theorem Stored.shiftRun (h : Stored s m as s.pc ops) (hops : ∀ op ∈ ops, op.2 ∈ as) :
    ShiftRun as ops (s, m) (next^[ops.length] (s, m)) := by
  induction ops generalizing s m with
  | nil => exact .done (s, m)
  | cons op ops ih =>
    obtain ⟨hop, hrest⟩ := List.forall_mem_cons.1 hops
    obtain ⟨hshift, hstored⟩ := h.of_cons hop
    exact .shift hshift (ih hstored hrest)

theorem of_left {m' : Memory} {c c' : Bool} (hne : as ≠ [])
    (h : m'.number as + 256 ^ as.length * c'.toNat = 2 * m.number as + c.toNat) :
    m'.number as = (2 * m.number as + c.toNat) % 256 ^ as.length ∧
      c' = (m.number as).testBit (8 * as.length - 1) := by
  have hmap : as.map m.peek ≠ [] := by simpa using hne
  have hbit := LittleEndian.testBit_value hmap
  have hhalf := LittleEndian.two_mul_half hmap
  rw [List.length_map] at hbit hhalf
  obtain ⟨hnumber, hcarry⟩ := LittleEndian.of_carry (m'.number_lt as) h
  have hc := Bool.toNat_le c
  refine ⟨hnumber, ?_⟩
  rw [Memory.number, hbit, Bool.eq_iff_iff, hcarry, decide_eq_true_iff, ← Memory.number, hhalf]
  omega

theorem of_right {m' : Memory} {c c' : Bool} (hne : as ≠ [])
    (h : 2 * m'.number as + c'.toNat = m.number as + 256 ^ as.length * c.toNat) :
    m'.number as = (m.number as + 256 ^ as.length * c.toNat) / 2 ∧
      c' = (m.number as).testBit 0 := by
  have hmap : as.map m.peek ≠ [] := by simpa using hne
  have hhalf := LittleEndian.two_mul_half hmap
  rw [List.length_map] at hhalf
  have hc' := Bool.toNat_le c'
  have heven : 256 ^ as.length * c.toNat = 2 * (2 ^ (8 * as.length - 1) * c.toNat) := by
    rw [hhalf, Nat.mul_assoc]
  refine ⟨by omega, ?_⟩
  rw [Nat.testBit_zero]
  cases c' with
  | false =>
    rw [Bool.toNat_false] at h
    exact (decide_eq_false (by omega)).symm
  | true =>
    rw [Bool.toNat_true] at h
    exact (decide_eq_true (by omega)).symm

/-- What comes of shifting a number, from its lowest byte up or from its highest one down. -/
structure LongShifts (as : List UInt16) (p : Processor × Memory) : Prop where
  doubled (q : Processor × Memory) (h : ShiftRun as (row .asl .rol as) p q) :
    q.2.number as = 2 * p.2.number as % 256 ^ as.length ∧
      q.1.flag .carry = (p.2.number as).testBit (8 * as.length - 1)
  halved (q : Processor × Memory) (h : ShiftRun as (row .lsr .ror as.reverse) p q) :
    q.2.number as = p.2.number as / 2 ∧ q.1.flag .carry = (p.2.number as).testBit 0
  rotatedLeft (q : Processor × Memory) (h : ShiftRun as (row .rol .rol as) p q) :
    q.2.number as =
        (2 * p.2.number as + (p.1.flag .carry).toNat) % 256 ^ as.length ∧
      q.1.flag .carry = (p.2.number as).testBit (8 * as.length - 1)
  rotatedRight (q : Processor × Memory) (h : ShiftRun as (row .ror .ror as.reverse) p q) :
    q.2.number as =
        (p.2.number as + 256 ^ as.length * (p.1.flag .carry).toNat) / 2 ∧
      q.1.flag .carry = (p.2.number as).testBit 0
  restored (q : Processor × Memory)
    (h : ShiftRun as (row .rol .rol as ++ row .ror .ror as.reverse) p q) :
    q.2.number as = p.2.number as ∧ q.1.flag .carry = p.1.flag .carry
  /-- Code that is stored apart from the number does run through its shifts. -/
  stored (ops : List (Shift × UInt16)) (hops : ∀ op ∈ ops, op.2 ∈ as)
    (h : Stored p.1 p.2 as p.1.pc ops) : ShiftRun as ops p (next^[ops.length] p)

/-- The forms of a shift make the same of a byte and the carry, be it in the accumulator or in
memory. -/
def Uniform (k : Shift) : Prop :=
  ∀ (s t : Processor) (m m' : Memory) (a : UInt16), s.ShiftsAccumulator m k →
    t.ShiftsByte m' k a → m'.Unhooked a → s.a = m'.peek a → s.flag .carry = t.flag .carry →
    (s.step m).2.1.a = (t.step m').2.2.peek a ∧
      ∀ f ∈ [Flag.carry, .zero, .negative], (s.step m).2.1.flag f = (t.step m').2.1.flag f

theorem uniform (k : Shift) : Uniform k := by
  intro s t m m' a hs ht hu ha hc
  have haccumulator := hs.shifts
  have hmemory := ht.shifts hu
  rw [ha, hc] at haccumulator
  have hbyte := haccumulator.byte.trans hmemory.byte.symm
  refine ⟨hbyte, fun f hf ↦ ?_⟩
  have hsigns := haccumulator.signs
  rw [hbyte] at hsigns
  simp only [List.mem_cons, List.not_mem_nil, or_false] at hf
  rcases hf with rfl | rfl | rfl
  · exact haccumulator.carry.trans hmemory.carry.symm
  · exact Bool.eq_iff_iff.2 (hsigns.zero.trans hmemory.signs.zero.symm)
  · exact Bool.eq_iff_iff.2 (hsigns.negative.trans hmemory.signs.negative.symm)

theorem long_shifts (hne : as ≠ []) (hnodup : as.Nodup) (hu : ∀ a ∈ as, p.2.Unhooked a) :
    LongShifts as p ∧ ∀ k, Uniform k := by
  have hp : Apart p.2 as as := ⟨hnodup, fun _ h ↦ h, hu⟩
  refine ⟨?_, uniform⟩
  constructor
  case doubled => exact fun q h ↦ of_left hne (h.row_left (.inl rfl) hne hp)
  case halved => exact fun q h ↦ of_right (c := false) hne (h.row_right (.inl rfl) hne hp)
  case rotatedLeft => exact fun q h ↦ of_left hne (h.row_left (.inr rfl) hne hp)
  case rotatedRight => exact fun q h ↦ of_right hne (h.row_right (.inr rfl) hne hp)
  case restored =>
    intro q h
    obtain ⟨r, hleft, hright⟩ := h.of_append
    have hr : Apart r.2 as as := hp.of_unhooked fun _ ↦ hleft.unhooked
    -- Both rows have the same total, the number and the carry between them.
    have htotal : 2 * q.2.number as + (q.1.flag .carry).toNat =
        2 * p.2.number as + (p.1.flag .carry).toNat :=
      (hright.row_right (.inr rfl) hne hr).trans (hleft.row_left (.inr rfl) hne hp)
    have hinj : ∀ c c' : Bool, c.toNat = c'.toNat → c = c' := by decide
    have hcarry := Bool.toNat_le (p.1.flag .carry)
    have hcarry' := Bool.toNat_le (q.1.flag .carry)
    exact ⟨by omega, hinj _ _ (by omega)⟩
  case stored => exact fun ops hops h ↦ h.shiftRun hops

theorem long_shifts_two_bytes :
    let s : Processor := { initial 0x0600 with x := 1 }
    let m := (Memory.blank.load 0x0600 [0x06, 0x80, 0x3E, 0x80, 0x00]).load 0x0080 [0x81, 0x80]
    let as : List UInt16 := [0x0080, 0x0081]
    as ≠ [] ∧ as.Nodup ∧ (∀ a ∈ as, m.Unhooked a) ∧ m.number as = 0x8081 ∧
      (next^[2] (s, m)).2.number as = 0x0102 ∧ (next^[2] (s, m)).1.flag .carry = true := by
  intro s m as
  have hunhooked (a : UInt16) : m.Unhooked a := by
    intro h hh
    simp [m, Memory.load, Memory.readHook_write, Memory.blank] at hh
  have hread (bs : List UInt16) : m.readAll bs = (bs.map m.peek, m) :=
    readAll_of_unhooked fun b _ ↦ hunhooked b
  have hcode : [0x0600, 0x0601, 0x0602, 0x0603, 0x0604].map m.peek =
      [0x06, 0x80, 0x3E, 0x80, 0x00] := by
    simp [m, Memory.load, Memory.peek_write]
  simp only [List.map_cons, List.map_nil, List.cons.injEq, and_true] at hcode
  obtain ⟨hasl, hlow, hrol, hbase, hpage⟩ := hcode
  have hnumber : m.number as = 0x8081 := by
    have hbytes : as.map m.peek = [0x81, 0x80] := by
      simp [m, as, Memory.load, Memory.peek_write]
    rw [Memory.number, hbytes]
    decide
  have hopcodes : Instruction.decode (m.peek 0x0600) = some ⟨Shift.asl.mnemonic, .zeroPage⟩ ∧
      Instruction.decode (m.peek 0x0602) = some ⟨Shift.rol.mnemonic, .absoluteX⟩ := by
    rw [hasl, hrol]
    decide +kernel
  have hfirst : ({ s with pc := 0x0601 } : Processor).target m .zeroPage = 0x0080 := by
    simp only [target, hread]
    exact congrArg UInt8.toUInt16 hlow
  have hsecond : ({ s with pc := 0x0603 } : Processor).target m .absoluteX = 0x0081 := by
    simp only [target, hread]
    exact congrArg₂ (fun low high ↦ Word.ofBytes low high + s.x.toUInt16) hbase hpage
  have hapart : (∀ b ∈ [0x0600, 0x0601], b ∉ as ∧ m.Unhooked b) ∧
      ∀ b ∈ [0x0602, 0x0603, 0x0604], b ∉ as ∧ m.Unhooked b := by
    simp [as, hunhooked]
  have hstored : Stored s m as 0x0600 (row .asl .rol as) :=
    .shift hopcodes.1 (by decide) hfirst hapart.1
      (.shift hopcodes.2 (by decide) hsecond hapart.2 (.done _))
  have hne : as ≠ [] := List.cons_ne_nil _ _
  have hnodup : as.Nodup := by decide
  have hall := (long_shifts (p := (s, m)) hne hnodup fun a _ ↦ hunhooked a).1
  have hrun := hall.stored _ (by decide) hstored
  obtain ⟨hvalue, hcarry⟩ := hall.doubled _ hrun
  refine ⟨hne, hnodup, fun a _ ↦ hunhooked a, hnumber, ?_, ?_⟩
  · exact hvalue.trans (by rw [hnumber]; decide)
  · exact hcarry.trans (by rw [hnumber]; decide)

end Processor

end Micro6502
