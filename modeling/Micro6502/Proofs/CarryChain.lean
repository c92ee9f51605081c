import Mathlib.Data.Nat.Bitwise
import Mathlib.Data.Nat.Digits.Lemmas
import Micro6502.Proofs.InstructionFrame

namespace Micro6502

namespace LittleEndian

def value (bs : List UInt8) : Nat := Nat.ofDigits 256 (bs.map UInt8.toNat)

/-- The number that bytes make in two's complement. -/
def signed (bs : List UInt8) : Int := (value bs : Int).bmod (256 ^ bs.length)

def Holds (n : Nat) (z : Int) : Prop := -(256 ^ n : Nat) ≤ 2 * z ∧ 2 * z < (256 ^ n : Nat)

variable {b : UInt8} {bs : List UInt8}

theorem value_cons (b : UInt8) (bs : List UInt8) : value (b :: bs) = b.toNat + 256 * value bs := by
  rw [value, List.map_cons, Nat.ofDigits_cons]
  rfl

theorem value_singleton (b : UInt8) : value [b] = b.toNat := value_cons b []

theorem value_lt (bs : List UInt8) : value bs < 256 ^ bs.length := by
  have h : ∀ d ∈ bs.map UInt8.toNat, d < 256 := by
    intro d hd
    obtain ⟨b, -, rfl⟩ := List.mem_map.1 hd
    exact b.toNat_lt
  have hlt := Nat.ofDigits_lt_base_pow_length (by decide) h
  rwa [List.length_map] at hlt

theorem bmod_eq {v p : Nat} (h : v < p) :
    (v : Int).bmod p = if 2 * v < p then (v : Int) else v - p := by
  rw [Int.bmod_def, Int.emod_eq_of_lt (by omega) (by omega)]
  split <;> split <;> omega

theorem signed_eq (bs : List UInt8) : signed bs =
    if 2 * value bs < 256 ^ bs.length then (value bs : Int)
    else value bs - (256 ^ bs.length : Nat) :=
  bmod_eq (value_lt bs)

theorem two_mul_half (h : bs ≠ []) : 256 ^ bs.length = 2 * 2 ^ (8 * bs.length - 1) := by
  have hlength : 0 < bs.length := List.length_pos_iff.2 h
  rw [show 256 = 2 ^ 8 from rfl, ← Nat.pow_mul, ← Nat.pow_succ']
  congr 1
  omega

theorem signed_singleton (b : UInt8) :
    signed [b] = if b.toNat < 128 then (b.toNat : Int) else b.toNat - 256 := by
  rw [signed, value_singleton]
  refine (bmod_eq b.toNat_lt).trans ?_
  split <;> split <;> omega

theorem signed_cons (b : UInt8) (h : bs ≠ []) : signed (b :: bs) = b.toNat + 256 * signed bs := by
  have hhalf := two_mul_half h
  have hb := b.toNat_lt
  have hlt := value_lt bs
  have hpow : 256 ^ (b :: bs).length = 256 * (2 * 2 ^ (8 * bs.length - 1)) := by
    rw [List.length_cons, Nat.pow_succ, hhalf, Nat.mul_comm]
  rw [hhalf] at hlt
  rw [signed, signed, hpow, hhalf, value_cons, bmod_eq hlt, bmod_eq (by omega)]
  split <;> split <;> omega

theorem holds_cons {r : Nat} {z : Int} (h : bs ≠ []) (hr : r < 256) :
    Holds (b :: bs).length (r + 256 * z) ↔ Holds bs.length z := by
  have hhalf := two_mul_half h
  rw [Holds, Holds, List.length_cons, Nat.pow_succ, hhalf]
  omega

theorem toNat_complement (b : UInt8) : (~~~b).toNat + b.toNat = 255 := by
  have hb := b.toNat_lt
  rw [UInt8.toNat_not, UInt8.size]
  omega

theorem testBit_value (h : bs ≠ []) :
    (value bs).testBit (8 * bs.length - 1) = decide (256 ^ bs.length ≤ 2 * value bs) := by
  have hlt := value_lt bs
  rw [two_mul_half h] at hlt ⊢
  by_cases htop : 2 ^ (8 * bs.length - 1) ≤ value bs
  · rw [Nat.testBit_of_two_pow_le_and_two_pow_add_one_gt htop (by rwa [Nat.pow_succ'])]
    exact (decide_eq_true (by omega)).symm
  · rw [Nat.testBit_lt_two_pow (Nat.lt_of_not_le htop)]
    exact (decide_eq_false (by omega)).symm

theorem value_complement (bs : List UInt8) :
    value (bs.map (~~~ ·)) + value bs + 1 = 256 ^ bs.length := by
  induction bs with
  | nil => rfl
  | cons b bs ih =>
    have hb := toNat_complement b
    rw [List.map_cons, value_cons, value_cons, List.length_cons, Nat.pow_succ, ← ih]
    omega

theorem of_carry {p r total : Nat} {k : Bool} (hr : r < p) (h : r + p * k.toNat = total) :
    r = total % p ∧ (k = true ↔ p ≤ total) := by
  subst h
  constructor
  · rw [Nat.add_mul_mod_self_left, Nat.mod_eq_of_lt hr]
  · cases k with
    | false => simpa using hr
    | true => simp

/-- To add what a number lacks of the highest one is to subtract it, and a missing carry is a
borrow. -/
theorem difference_of_total {p r v w : Nat} {k c : Bool}
    (h : r + p * k.toNat + (w + 1) = v + p + c.toNat) :
    (r : Int) = v - w - (!c).toNat + p * (!k).toNat := by
  have hc : c.toNat + (!c).toNat = 1 := by cases c <;> rfl
  cases k with
  | false =>
    rw [Bool.toNat_false] at h
    rw [Bool.not_false, Bool.toNat_true]
    omega
  | true =>
    rw [Bool.toNat_true] at h
    rw [Bool.not_true, Bool.toNat_false]
    omega

theorem of_borrow {p r v w : Nat} {k c : Bool} (hr : r < p)
    (h : (r : Int) = v - w - (!c).toNat + p * (!k).toNat) :
    (r : Int) = (v - w - (!c).toNat) % p ∧ (k = true ↔ w + (!c).toNat ≤ v) := by
  constructor
  · calc (r : Int) = r % p := (Int.emod_eq_of_lt (Int.natCast_nonneg _) (Int.ofNat_lt.2 hr)).symm
      _ = (v - w - (!c).toNat) % p := by rw [h, Int.add_mul_emod_self_left]
  · cases k with
    | false =>
      rw [Bool.not_false, Bool.toNat_true] at h
      rw [iff_comm, iff_false_right Bool.false_ne_true]
      omega
    | true =>
      rw [Bool.not_true, Bool.toNat_false] at h
      rw [iff_true_left rfl]
      omega

theorem signed_complement (h : bs ≠ []) : signed (bs.map (~~~ ·)) = -1 - signed bs := by
  have hhalf := two_mul_half h
  have hsum := value_complement bs
  have hlt := value_lt bs
  rw [hhalf] at hsum hlt
  rw [signed, signed, List.length_map, hhalf, bmod_eq (by omega), bmod_eq (by omega)]
  split <;> split <;> omega

end LittleEndian

namespace Sum

variable (a v : UInt8) (c : Bool)

theorem testBit_seven (b : UInt8) : b.toNat.testBit 7 = decide (128 ≤ b.toNat) := by
  have hb := b.toNat_lt
  rw [Nat.testBit_eq_decide_div_mod_eq]
  exact decide_eq_decide.2 (by omega)

theorem and_sign_eq_zero_iff (b : UInt8) : b &&& 0x80 = 0 ↔ b.toNat < 128 := by
  have hand : (b &&& 0x80).toNat = (b.toNat.testBit 7).toNat * 2 ^ 7 := by
    rw [UInt8.toNat_and]
    exact Nat.and_two_pow b.toNat 7
  rw [← UInt8.toNat_inj, hand, testBit_seven]
  by_cases h : 128 ≤ b.toNat
  · simp [h]
  · simp [h, Nat.lt_of_not_le h]

theorem sameSign_iff : sameSign a v = true ↔ (a.toNat < 128 ↔ v.toNat < 128) := by
  have hbit := testBit_seven (a ^^^ v)
  rw [UInt8.toNat_xor, Nat.testBit_xor, testBit_seven, testBit_seven] at hbit
  have hxor : 128 ≤ a.toNat ^^^ v.toNat ↔ ¬ (128 ≤ a.toNat ↔ 128 ≤ v.toNat) := by
    rw [← decide_eq_true_iff (p := 128 ≤ _), ← hbit]
    exact bne_iff_ne.trans (not_congr decide_eq_decide)
  rw [sameSign, beq_iff_eq, and_sign_eq_zero_iff, UInt8.toNat_xor, ← Nat.not_le, hxor]
  omega

theorem addBinary_total : (addBinary a v c).value.toNat + 256 * (addBinary a v c).carry.toNat =
    a.toNat + v.toNat + c.toNat := by
  have ha := a.toNat_lt
  have hv := v.toNat_lt
  have hc := c.toNat_lt
  rw [addBinary, UInt8.toNat_ofNat']
  by_cases h : 0x100 ≤ a.toNat + v.toNat + c.toNat
  · simp only [h, decide_true, Bool.toNat_true]
    omega
  · simp only [h, decide_false, Bool.toNat_false]
    omega

theorem addBinary_overflow_iff : (addBinary a v c).overflow = true ↔
    ¬ LittleEndian.Holds 1 (LittleEndian.signed [a] + LittleEndian.signed [v] + c.toNat) := by
  have ha := a.toNat_lt
  have hv := v.toNat_lt
  have hc := c.toNat_lt
  rw [addBinary, Bool.and_eq_true, sameSign_iff, leavesRange, Bool.and_eq_true, decide_eq_true_iff,
    decide_eq_true_iff, LittleEndian.signed_singleton, LittleEndian.signed_singleton,
    LittleEndian.Holds]
  split <;> split <;> omega

theorem subtractBinary_eq : subtractBinary a v c = addBinary a (~~~v) c := by
  have hv := LittleEndian.toNat_complement v
  have htotal : 0xFF + a.toNat - v.toNat + c.toNat = a.toNat + (~~~v).toNat + c.toNat := by omega
  have hsign : (!sameSign a v) = sameSign a (~~~v) := by
    rw [Bool.eq_iff_iff, Bool.not_eq_true', ← Bool.not_eq_true, sameSign_iff, sameSign_iff]
    omega
  simp only [subtractBinary, addBinary, htotal, hsign]

end Sum

namespace Processor

variable {n : Mnemonic} {decimal c : Bool} {x y : UInt8} {xs ys rs : List UInt8} {s t : Processor}
  {r : Sum}

structure Shows (t : Processor) (r : Sum) : Prop where
  value : t.a = r.value
  carry : t.flag .carry = r.carry
  overflow : t.flag .overflow = r.overflow
  negative : t.flag .negative = true ↔ 128 ≤ r.value.toNat

theorem shows_setSum (s : Processor) (r : Sum) : (s.setSum r).Shows r := by
  have hsigns := signs_setZeroNegative
    (((s.setFlag .carry r.carry).setFlag .overflow r.overflow).setRegister .a r.value) r.value
  have hkept (f : Flag) (hz : Flag.zero ≠ f) (hn : Flag.negative ≠ f) (hu : f ≠ .unused) :
      (s.setSum r).flag f = ((s.setFlag .carry r.carry).setFlag .overflow r.overflow).flag f := by
    rw [setSum, load, setZeroNegative, flag_setFlag_of_ne hn hu, flag_setFlag_of_ne hz hu]
    rfl
  constructor
  case value => rfl
  case carry =>
    rw [hkept _ (by decide) (by decide) (by decide), flag_setFlag_of_ne (by decide) (by decide),
      flag_setFlag_self (by decide)]
  case overflow =>
    rw [hkept _ (by decide) (by decide) (by decide), flag_setFlag_self (by decide)]
  case negative =>
    refine hsigns.negative.trans ?_
    rw [ne_eq, Sum.and_sign_eq_zero_iff, Nat.not_lt]

theorem Shows.forget (h : t.Shows r) : ({ t with fault := none } : Processor).Shows r :=
  ⟨h.value, h.carry, h.overflow, h.negative⟩

theorem shows_addWithCarry (s : Processor) (v : UInt8) :
    (s.addWithCarry v).Shows (if s.flag .decimal then Sum.addDecimal s.a v (s.flag .carry)
      else Sum.addBinary s.a v (s.flag .carry)) := shows_setSum _ _

theorem shows_subtractWithCarry (s : Processor) (v : UInt8) :
    (s.subtractWithCarry v).Shows (if s.flag .decimal then Sum.subtractDecimal s.a v (s.flag .carry)
      else Sum.subtractBinary s.a v (s.flag .carry)) := shows_setSum _ _

/-- Leads to a processor by one instruction of a mnemonic, in whatever mode and memory, given the
carry, the accumulator and the operand byte that it finds. -/
inductive Executes (n : Mnemonic) (decimal c : Bool) (x y : UInt8) : Processor → Prop
  | intro (s : Processor) (m : Memory) (mode : AddressingMode)
      (hi : Instruction.decode (m.read s.pc).1 = some ⟨n, mode⟩) (hd : s.flag .decimal = decimal)
      (hc : s.flag .carry = c) (hx : s.a = x)
      (hy : s.fetched.operandByte (m.read s.pc).2 mode = y) :
      Executes n decimal c x y (s.step m).2.1

theorem Executes.shows_add (h : Executes .adc decimal c x y t) :
    t.Shows (if decimal then Sum.addDecimal x y c else Sum.addBinary x y c) := by
  obtain ⟨s, m, mode, hi, rfl, rfl, rfl, rfl⟩ := h
  rw [state_step hi]
  simp only [Mnemonic.operation, perform, Bus.run_bind, Bus.run_pure, state_operand, value_operand]
  exact (shows_addWithCarry _ _).forget

theorem Executes.shows_subtract (h : Executes .sbc decimal c x y t) :
    t.Shows (if decimal then Sum.subtractDecimal x y c else Sum.subtractBinary x y c) := by
  obtain ⟨s, m, mode, hi, rfl, rfl, rfl, rfl⟩ := h
  rw [state_step hi]
  simp only [Mnemonic.operation, perform, Bus.run_bind, Bus.run_pure, state_operand, value_operand]
  exact (shows_subtractWithCarry _ _).forget

theorem Executes.shows_adc (h : Executes .adc false c x y t) : t.Shows (Sum.addBinary x y c) :=
  h.shows_add

theorem Executes.shows_sbc (h : Executes .sbc false c x y t) :
    t.Shows (Sum.addBinary x (~~~y) c) := by
  rw [← Sum.subtractBinary_eq]
  exact h.shows_subtract

theorem exists_executes {opcode : UInt8} (h : Instruction.decode opcode = some ⟨n, .immediate⟩)
    (decimal c : Bool) (x y : UInt8) : ∃ t, Executes n decimal c x y t := by
  let origin : Processor :=
    ({ Processor.initial 0x0600 with a := x }.setFlag .decimal decimal).setFlag .carry c
  let m : Memory := (Memory.blank.write 0x0600 opcode).write 0x0601 y
  have hread (a : UInt16) : m.read a = (m.peek a, m) := rfl
  have hopcode : m.peek 0x0600 = opcode := by
    rw [Memory.peek_write, if_neg (by decide), Memory.peek_write, if_pos rfl]
  have hoperand : m.peek 0x0601 = y := Memory.peek_write.trans (if_pos rfl)
  have hbehind : origin.fetched.pc = 0x0601 := rfl
  refine ⟨_, .intro origin m .immediate ?_ ?_ ?_ rfl ?_⟩
  · rw [hread]
    exact hopcode.symm ▸ h
  · exact (flag_setFlag_of_ne (by decide) (by decide) c).trans
      (flag_setFlag_self (by decide) decimal)
  · exact flag_setFlag_self (by decide) c
  · rw [operandByte, if_pos rfl, hread, hread, hbehind, hoperand]

/-- Executions of a mnemonic on the bytes of two numbers, the lowest first. Each finds the carry
that the one before leaves, and in the end each has left a byte of the result in the accumulator.
What is executed in between does not matter, as long as the carry is as it was. -/
inductive Chain (n : Mnemonic) (decimal : Bool) :
    Bool → List UInt8 → List UInt8 → List UInt8 → Processor → Prop
  | one {c : Bool} {x y : UInt8} {t : Processor} (h : Executes n decimal c x y t) :
      Chain n decimal c [x] [y] [t.a] t
  | cons {c : Bool} {x y : UInt8} {t u : Processor} {xs ys rs : List UInt8}
      (h : Executes n decimal c x y t) (hrest : Chain n decimal (t.flag .carry) xs ys rs u) :
      Chain n decimal c (x :: xs) (y :: ys) (t.a :: rs) u

theorem Chain.ne_nil (h : Chain n decimal c xs ys rs t) : xs ≠ [] ∧ ys ≠ [] ∧ rs ≠ [] := by
  cases h <;> exact ⟨List.cons_ne_nil _ _, List.cons_ne_nil _ _, List.cons_ne_nil _ _⟩

theorem exists_chain {opcode : UInt8} (h : Instruction.decode opcode = some ⟨n, .immediate⟩)
    (hne : xs ≠ []) (hlength : ys.length = xs.length) (c : Bool) :
    ∃ rs t, Chain n decimal c xs ys rs t := by
  induction xs generalizing ys c with
  | nil => exact absurd rfl hne
  | cons x xs ih =>
    obtain ⟨y, ys, rfl⟩ := List.exists_cons_of_length_eq_add_one hlength
    obtain ⟨t, ht⟩ := exists_executes h decimal c x y
    by_cases hxs : xs = []
    · subst hxs
      obtain rfl := List.length_eq_zero_iff.1 (Nat.succ.inj hlength)
      exact ⟨_, t, .one ht⟩
    · obtain ⟨rs, u, hu⟩ := ih hxs (Nat.succ.inj hlength) (t.flag .carry)
      exact ⟨_, u, .cons ht hu⟩

open LittleEndian

/-- The bytes of a sum and the flags that its last byte leaves. -/
structure Totals (c : Bool) (xs ys rs : List UInt8) (t : Processor) : Prop where
  length_ys : ys.length = xs.length
  length : rs.length = xs.length
  total : value rs + 256 ^ xs.length * (t.flag .carry).toNat = value xs + value ys + c.toNat
  overflow : t.flag .overflow = true ↔ ¬ Holds xs.length (signed xs + signed ys + c.toNat)
  negative : t.flag .negative = true ↔ 256 ^ xs.length ≤ 2 * value rs

theorem Shows.totals (h : t.Shows (Sum.addBinary x y c)) : Totals c [x] [y] [t.a] t := by
  have htotal := Sum.addBinary_total x y c
  rw [← h.value, ← h.carry] at htotal
  constructor
  case length_ys => rfl
  case length => rfl
  case total => simpa only [value_singleton, List.length_singleton, Nat.pow_one] using htotal
  case overflow => exact h.overflow ▸ Sum.addBinary_overflow_iff x y c
  case negative =>
    rw [h.negative, h.value, value_singleton, List.length_singleton]
    omega

theorem Totals.cons {u : Processor} (h : t.Shows (Sum.addBinary x y c))
    (hrest : Totals (t.flag .carry) xs ys rs u) (hxs : xs ≠ []) (hys : ys ≠ []) :
    Totals c (x :: xs) (y :: ys) (t.a :: rs) u := by
  have hbyte := Sum.addBinary_total x y c
  rw [← h.value, ← h.carry] at hbyte
  have ha := t.a.toNat_lt
  constructor
  case length_ys => exact congrArg (· + 1) hrest.length_ys
  case length => exact congrArg (· + 1) hrest.length
  case total =>
    have htotal := hrest.total
    rw [List.length_cons, Nat.pow_succ, Nat.mul_right_comm, value_cons, value_cons, value_cons]
    omega
  case overflow =>
    -- The bytes below the highest add up to a carry and a byte, which has no part in the sign.
    have hsum : signed (x :: xs) + signed (y :: ys) + c.toNat =
        t.a.toNat + 256 * (signed xs + signed ys + (t.flag .carry).toNat) := by
      rw [signed_cons x hxs, signed_cons y hys]
      omega
    rw [hsum, holds_cons hxs ha]
    exact hrest.overflow
  case negative =>
    have hhalf := two_mul_half hxs
    rw [hrest.negative, List.length_cons, Nat.pow_succ, hhalf, value_cons]
    omega

theorem Chain.totals {f : UInt8 → UInt8}
    (hn : ∀ {c x y t}, Executes n decimal c x y t → t.Shows (Sum.addBinary x (f y) c))
    (h : Chain n decimal c xs ys rs t) : Totals c xs (ys.map f) rs t := by
  induction h with
  | one h => exact (hn h).totals
  | cons h hrest ih =>
    obtain ⟨hxs, hys, -⟩ := hrest.ne_nil
    exact ih.cons (hn h) hxs (List.map_eq_nil_iff.not.2 hys)

variable (c xs ys rs t) in
/-- The sum of two numbers and a carry, in the bytes and flags that a row of additions leaves. -/
structure LongSum : Prop where
  length : rs.length = xs.length
  bytes : value rs = (value xs + value ys + c.toNat) % 256 ^ xs.length
  carry : t.flag .carry = true ↔ 256 ^ xs.length ≤ value xs + value ys + c.toNat
  overflow : t.flag .overflow = true ↔ ¬ Holds xs.length (signed xs + signed ys + c.toNat)
  negative : t.flag .negative = (value rs).testBit (8 * xs.length - 1)

variable (c xs ys rs t) in
/-- The difference of two numbers, less one if the carry is clear, in the bytes and the flags that a
row of subtractions leaves. -/
structure LongDifference : Prop where
  length : rs.length = xs.length
  bytes : value rs = ((value xs : Int) - value ys - (!c).toNat) % (256 ^ xs.length : Nat)
  carry : t.flag .carry = true ↔ value ys + (!c).toNat ≤ value xs
  overflow : t.flag .overflow = true ↔ ¬ Holds xs.length (signed xs - signed ys - (!c).toNat)
  negative : t.flag .negative = (value rs).testBit (8 * xs.length - 1)
  order : (t.flag .negative ^^ t.flag .overflow) = true ↔ signed xs < signed ys + (!c).toNat

theorem Totals.longSum (h : Totals c xs ys rs t) (hne : rs ≠ []) : LongSum c xs ys rs t := by
  obtain ⟨-, hrs, htotal, hoverflow, hnegative⟩ := h
  have hlt := value_lt rs
  rw [hrs] at hlt
  obtain ⟨hbytes, hcarry⟩ := of_carry hlt htotal
  constructor
  case length => exact hrs
  case bytes => exact hbytes
  case carry => exact hcarry
  case overflow => exact hoverflow
  case negative =>
    rw [← hrs, testBit_value hne, hrs, Bool.eq_iff_iff, hnegative, decide_eq_true_iff]

theorem Totals.difference (h : Totals c xs (ys.map (~~~ ·)) rs t) :
    (value rs : Int) = value xs - value ys - (!c).toNat +
      (256 ^ xs.length : Nat) * (!t.flag .carry).toNat := by
  have htotal := h.total
  have hcomplement := value_complement ys
  have hlength : ys.length = xs.length := (List.length_map _).symm.trans h.length_ys
  rw [hlength] at hcomplement
  apply difference_of_total
  omega

/-- The sign of a difference is right unless it is out of range, and is wrong if it is. -/
theorem Totals.order (h : Totals c xs (ys.map (~~~ ·)) rs t)
    (hoverflow : t.flag .overflow = true ↔
      ¬ Holds xs.length (signed xs - signed ys - (!c).toNat)) :
    (t.flag .negative ^^ t.flag .overflow) = true ↔ signed xs < signed ys + (!c).toNat := by
  have hdifference := h.difference
  have hlength : ys.length = xs.length := (List.length_map _).symm.trans h.length_ys
  have hx := value_lt xs
  have hy := value_lt ys
  have hr := value_lt rs
  have hborrow := Bool.toNat_le (!c)
  have hxor : (t.flag .negative ^^ t.flag .overflow) = true ↔
      ¬ (t.flag .negative = true ↔ t.flag .overflow = true) :=
    bne_iff_ne.trans (not_congr Bool.eq_iff_iff)
  rw [hxor, h.negative, hoverflow, Holds, signed_eq xs, signed_eq ys, hlength]
  rw [hlength] at hy
  rw [h.length] at hr
  generalize 256 ^ xs.length = p at *
  cases hflag : t.flag .carry with
  | false =>
    rw [hflag, Bool.not_false, Bool.toNat_true] at hdifference
    split <;> split <;> omega
  | true =>
    rw [hflag, Bool.not_true, Bool.toNat_false] at hdifference
    split <;> split <;> omega

theorem Totals.longDifference (h : Totals c xs (ys.map (~~~ ·)) rs t) (hne : rs ≠ []) :
    LongDifference c xs ys rs t := by
  have hlength : ys.length = xs.length := (List.length_map _).symm.trans h.length_ys
  have hrs := h.length
  have hlt := value_lt rs
  have hys : ys ≠ [] := by
    rw [← List.length_pos_iff] at hne ⊢
    omega
  have hsigned : signed xs + signed (ys.map (~~~ ·)) + c.toNat =
      signed xs - signed ys - (!c).toNat := by
    have hc : c.toNat + (!c).toNat = 1 := by cases c <;> rfl
    rw [signed_complement hys]
    omega
  have hoverflow := h.overflow
  rw [hsigned] at hoverflow
  rw [hrs] at hlt
  obtain ⟨hbytes, hcarry⟩ := of_borrow hlt h.difference
  constructor
  case length => exact hrs
  case bytes => exact hbytes
  case carry => exact hcarry
  case overflow => exact hoverflow
  case negative =>
    rw [← hrs, testBit_value hne, hrs, Bool.eq_iff_iff, h.negative, decide_eq_true_iff]
  case order => exact h.order hoverflow

/-- Additions and subtractions, byte after byte, work on numbers of any length, and the last of them
leaves the flags of the whole result. -/
theorem long_arithmetic (hne : xs ≠ []) (hlength : ys.length = xs.length) (c : Bool) :
    ((∃ rs t, Chain .adc false c xs ys rs t) ∧
        ∀ rs t, Chain .adc false c xs ys rs t → LongSum c xs ys rs t) ∧
      (∃ rs t, Chain .sbc false c xs ys rs t) ∧
        ∀ rs t, Chain .sbc false c xs ys rs t → LongDifference c xs ys rs t := by
  have hadc : Instruction.decode 0x69 = some ⟨.adc, .immediate⟩ := by decide +kernel
  have hsbc : Instruction.decode 0xE9 = some ⟨.sbc, .immediate⟩ := by decide +kernel
  refine ⟨⟨exists_chain hadc hne hlength c, ?_⟩, exists_chain hsbc hne hlength c, ?_⟩
  · intro rs t h
    have htotals := h.totals (f := id) Executes.shows_adc
    rw [List.map_id] at htotals
    exact htotals.longSum h.ne_nil.2.2
  · intro rs t h
    exact (h.totals (f := (~~~ ·)) Executes.shows_sbc).longDifference h.ne_nil.2.2

theorem long_arithmetic_borrowed : ∃ rs t, Chain .sbc false false [0x00, 0x80] [0x00, 0x00] rs t ∧
    value rs = 0x7FFF ∧ t.flag .carry = true ∧ t.flag .overflow = true ∧
      t.flag .negative = false := by
  obtain ⟨-, ⟨rs, t, h⟩, hall⟩ := @long_arithmetic [0x00, 0x80] [0x00, 0x00] nofun rfl false
  obtain ⟨hrs, hbytes, hcarry, hoverflow, hnegative, -⟩ := hall rs t h
  have hvalue : value rs = 0x7FFF := by
    have hdifference : ((value [0x00, 0x80] : Int) - value [0x00, 0x00] - (!false).toNat) %
        (256 ^ 2 : Nat) = 0x7FFF := by decide +kernel
    exact_mod_cast hbytes.trans hdifference
  refine ⟨rs, t, h, hvalue, hcarry.2 (by decide +kernel), hoverflow.2 ?_, ?_⟩
  · unfold Holds
    decide +kernel
  · rw [hnegative, hvalue]
    decide +kernel

end Processor

end Micro6502
