import Micro6502.Proofs.CarryChain

namespace Micro6502

namespace Decimal

def Valid (b : UInt8) : Prop := b.toNat / 16 ≤ 9 ∧ b.toNat % 16 ≤ 9

instance : DecidablePred Valid := fun _ ↦ inferInstanceAs (Decidable (_ ∧ _))

def ofByte (b : UInt8) : Nat := 10 * (b.toNat / 16) + b.toNat % 16

def value (bs : List UInt8) : Nat := Nat.ofDigits 100 (bs.map ofByte)

/-- What two digits lack of nines. -/
def nines (b : UInt8) : UInt8 := 0x99 - b

variable {a b : UInt8} {as bs : List UInt8}

theorem ofByte_lt (h : Valid b) : ofByte b < 100 := by
  obtain ⟨hhigh, hlow⟩ := h
  rw [ofByte]
  omega

theorem ofByte_inj (ha : Valid a) (hb : Valid b) (h : ofByte a = ofByte b) : a = b := by
  obtain ⟨-, ha⟩ := ha
  obtain ⟨-, hb⟩ := hb
  rw [ofByte, ofByte] at h
  apply UInt8.toNat_inj.1
  omega

theorem toNat_nines (h : Valid b) : (nines b).toNat = 153 - b.toNat := by
  obtain ⟨hhigh, hlow⟩ := h
  have hle : b ≤ 0x99 := UInt8.le_iff_toNat_le.2 (show b.toNat ≤ 153 by omega)
  rw [nines, UInt8.toNat_sub_of_le _ _ hle]
  rfl

theorem ofByte_nines (h : Valid b) : ofByte (nines b) + ofByte b = 99 := by
  have hnines := toNat_nines h
  obtain ⟨hhigh, hlow⟩ := h
  rw [ofByte, ofByte, hnines]
  omega

theorem value_cons (b : UInt8) (bs : List UInt8) : value (b :: bs) = ofByte b + 100 * value bs := by
  rw [value, List.map_cons, Nat.ofDigits_cons]
  rfl

theorem value_singleton (b : UInt8) : value [b] = ofByte b := value_cons b []

theorem digit_lt (h : ∀ b ∈ bs, Valid b) : ∀ d ∈ bs.map ofByte, d < 100 := by
  intro d hd
  obtain ⟨b, hb, rfl⟩ := List.mem_map.1 hd
  exact ofByte_lt (h b hb)

theorem value_lt (h : ∀ b ∈ bs, Valid b) : value bs < 100 ^ bs.length := by
  have hlt := Nat.ofDigits_lt_base_pow_length (by decide) (digit_lt h)
  rwa [List.length_map] at hlt

theorem value_inj (ha : ∀ a ∈ as, Valid a) (hb : ∀ b ∈ bs, Valid b) (hl : as.length = bs.length)
    (h : value as = value bs) : as = bs := by
  induction as generalizing bs with
  | nil => exact (List.length_eq_zero_iff.1 hl.symm).symm
  | cons a as ih =>
    obtain ⟨b, bs, rfl⟩ := List.exists_cons_of_length_eq_add_one hl.symm
    obtain ⟨ha, has⟩ := List.forall_mem_cons.1 ha
    obtain ⟨hb, hbs⟩ := List.forall_mem_cons.1 hb
    have hlt := ofByte_lt ha
    have hlt' := ofByte_lt hb
    rw [value_cons, value_cons] at h
    rw [ofByte_inj ha hb (by omega), ih has hbs (Nat.succ.inj hl) (by omega)]

theorem value_nines (h : ∀ b ∈ bs, Valid b) :
    value (bs.map nines) + (value bs + 1) = 100 ^ bs.length := by
  induction bs with
  | nil => rfl
  | cons b bs ih =>
    obtain ⟨hb, hbs⟩ := List.forall_mem_cons.1 h
    have hdigits := ofByte_nines hb
    rw [List.map_cons, value_cons, value_cons, List.length_cons, Nat.pow_succ, ← ih hbs]
    omega

end Decimal

namespace Sum

open Decimal

variable {a v : UInt8}

/-- A sum that consists of two digits and a carry. -/
structure Counts (r : Sum) (total : Nat) : Prop where
  valid : Valid r.value
  total : ofByte r.value + 100 * r.carry.toNat = total

theorem counts_of_digits {r : Sum} {total : Nat} (high low : Nat) (hh : high ≤ 9) (hl : low ≤ 9)
    (hr : r.value.toNat = 16 * high + low) (ht : 10 * high + low + 100 * r.carry.toNat = total) :
    r.Counts total := by
  constructor
  case valid =>
    rw [Valid, hr]
    omega
  case total =>
    rw [ofByte, hr]
    omega

theorem counts_addDecimal (ha : Valid a) (hv : Valid v) (c : Bool) :
    (addDecimal a v c).Counts (ofByte a + ofByte v + c.toNat) := by
  have hc := c.toNat_le
  obtain ⟨ha, ha'⟩ := ha
  obtain ⟨hv, hv'⟩ := hv
  simp only [addDecimal]
  rw [ofByte, ofByte]
  generalize a.toNat / 16 = a₁, a.toNat % 16 = a₀, v.toNat / 16 = v₁, v.toNat % 16 = v₀,
    c.toNat = k at *
  by_cases hlow : a₀ + v₀ + k < 10
  · simp only [if_pos hlow]
    by_cases hhigh : a₀ + v₀ + k + a₁ * 16 + v₁ * 16 < 0xA0
    · rw [if_pos hhigh, decide_eq_false (Nat.not_le.2 hhigh)]
      exact counts_of_digits (a₁ + v₁) (a₀ + v₀ + k) (by omega) (by omega)
        (UInt8.toNat_ofNat'.trans (by omega)) (by rw [Bool.toNat_false]; omega)
    · rw [if_neg hhigh, decide_eq_true (Nat.not_lt.1 hhigh)]
      exact counts_of_digits (a₁ + v₁ - 10) (a₀ + v₀ + k) (by omega) (by omega)
        (UInt8.toNat_ofNat'.trans (by omega)) (by rw [Bool.toNat_true]; omega)
  · have hcorrected : 16 + (a₀ + v₀ + k + 6) % 16 = a₀ + v₀ + k + 6 := by omega
    simp only [if_neg hlow, hcorrected]
    by_cases hhigh : a₀ + v₀ + k + 6 + a₁ * 16 + v₁ * 16 < 0xA0
    · rw [if_pos hhigh, decide_eq_false (Nat.not_le.2 hhigh)]
      exact counts_of_digits (a₁ + v₁ + 1) (a₀ + v₀ + k - 10) (by omega) (by omega)
        (UInt8.toNat_ofNat'.trans (by omega)) (by rw [Bool.toNat_false]; omega)
    · rw [if_neg hhigh, decide_eq_true (Nat.not_lt.1 hhigh)]
      exact counts_of_digits (a₁ + v₁ - 9) (a₀ + v₀ + k - 10) (by omega) (by omega)
        (UInt8.toNat_ofNat'.trans (by omega)) (by rw [Bool.toNat_true]; omega)

theorem toNat_ofInt {z : Int} {n : Nat} (h : z % 256 = n) : (UInt8.ofInt z).toNat = n := by
  rw [UInt8.ofInt, UInt8.toNat_ofNat']
  omega

/-- With a borrow or without, the digits are those of a sum with the nines' complement. -/
theorem counts_subtractDecimal (ha : Valid a) (hv : Valid v) (c : Bool) :
    (subtractDecimal a v c).Counts (ofByte a + ofByte (nines v) + c.toNat) := by
  have hnines := ofByte_nines hv
  have hc := c.toNat_le
  obtain ⟨ha, ha'⟩ := ha
  obtain ⟨hv, hv'⟩ := hv
  simp only [subtractDecimal]
  generalize ofByte (nines v) = w at hnines ⊢
  rw [ofByte] at hnines ⊢
  generalize a.toNat / 16 = a₁, a.toNat % 16 = a₀, v.toNat / 16 = v₁, v.toNat % 16 = v₀,
    c.toNat = k at *
  by_cases hlow : (0x0F : Int) + a₀ - v₀ + k < 0x10
  · simp only [if_pos hlow]
    by_cases hhigh : (0 : Int) + 0xF0 + (a₁ * 16 : Nat) - (v₁ * 16 : Nat) < 0x100
    · rw [if_pos hhigh, decide_eq_false (Int.not_le.2 hhigh)]
      exact counts_of_digits (a₁ + 9 - v₁) (a₀ + 9 + k - v₀) (by omega) (by omega)
        (toNat_ofInt (by omega)) (by rw [Bool.toNat_false]; omega)
    · rw [if_neg hhigh, decide_eq_true (Int.not_lt.1 hhigh)]
      exact counts_of_digits (a₁ - 1 - v₁) (a₀ + 9 + k - v₀) (by omega) (by omega)
        (toNat_ofInt (by omega)) (by rw [Bool.toNat_true]; omega)
  · simp only [if_neg hlow]
    by_cases hhigh : (0x10 : Int) + 0xF0 + (a₁ * 16 : Nat) - (v₁ * 16 : Nat) < 0x100
    · rw [if_pos hhigh, decide_eq_false (Int.not_le.2 hhigh)]
      exact counts_of_digits (a₁ + 10 - v₁) (a₀ + k - 1 - v₀) (by omega) (by omega)
        (toNat_ofInt (by omega)) (by rw [Bool.toNat_false]; omega)
    · rw [if_neg hhigh, decide_eq_true (Int.not_lt.1 hhigh)]
      exact counts_of_digits (a₁ - v₁) (a₀ + k - 1 - v₀) (by omega) (by omega)
        (toNat_ofInt (by omega)) (by rw [Bool.toNat_true]; omega)

end Sum

namespace Processor

open Decimal

variable {n : Mnemonic} {c : Bool} {x y : UInt8} {xs ys rs : List UInt8} {s t u : Processor}
  {r : Sum} {total : Nat}

structure Counts (t : Processor) (total : Nat) : Prop where
  valid : Valid t.a
  total : ofByte t.a + 100 * (t.flag .carry).toNat = total

theorem Shows.counts (h : t.Shows r) (hr : r.Counts total) : t.Counts total := by
  obtain ⟨hvalid, htotal⟩ := hr
  rw [← h.value] at hvalid htotal
  rw [← h.carry] at htotal
  exact ⟨hvalid, htotal⟩

theorem Executes.counts_adc (h : Executes .adc true c x y t) (hx : Valid x) (hy : Valid y) :
    t.Counts (ofByte x + ofByte y + c.toNat) :=
  h.shows_add.counts (Sum.counts_addDecimal hx hy c)

theorem Executes.counts_sbc (h : Executes .sbc true c x y t) (hx : Valid x) (hy : Valid y) :
    t.Counts (ofByte x + ofByte (nines y) + c.toNat) :=
  h.shows_subtract.counts (Sum.counts_subtractDecimal hx hy c)

/-- The bytes of a decimal sum and the carry that its last byte leaves. -/
structure DecimalTotals (c : Bool) (xs ys rs : List UInt8) (t : Processor) : Prop where
  length_ys : ys.length = xs.length
  length : rs.length = xs.length
  valid : ∀ r ∈ rs, Valid r
  total : value rs + 100 ^ xs.length * (t.flag .carry).toNat = value xs + value ys + c.toNat

theorem Counts.totals (h : t.Counts (ofByte x + ofByte y + c.toNat)) :
    DecimalTotals c [x] [y] [t.a] t := by
  constructor
  case length_ys => rfl
  case length => rfl
  case valid => exact List.forall_mem_singleton.2 h.valid
  case total =>
    simpa only [value_singleton, List.length_singleton, Nat.pow_one] using h.total

theorem DecimalTotals.cons (h : t.Counts (ofByte x + ofByte y + c.toNat))
    (hrest : DecimalTotals (t.flag .carry) xs ys rs u) :
    DecimalTotals c (x :: xs) (y :: ys) (t.a :: rs) u := by
  constructor
  case length_ys => exact congrArg (· + 1) hrest.length_ys
  case length => exact congrArg (· + 1) hrest.length
  case valid => exact List.forall_mem_cons.2 ⟨h.valid, hrest.valid⟩
  case total =>
    have hbyte := h.total
    have htotal := hrest.total
    rw [List.length_cons, Nat.pow_succ, Nat.mul_right_comm, value_cons, value_cons, value_cons]
    omega

theorem Chain.decimalTotals {f : UInt8 → UInt8}
    (hn : ∀ {c x y t}, Executes n true c x y t → Valid x → Valid y →
      t.Counts (ofByte x + ofByte (f y) + c.toNat))
    (h : Chain n true c xs ys rs t) (hx : ∀ x ∈ xs, Valid x) (hy : ∀ y ∈ ys, Valid y) :
    DecimalTotals c xs (ys.map f) rs t := by
  induction h with
  | one h =>
    exact (hn h (List.forall_mem_singleton.1 hx) (List.forall_mem_singleton.1 hy)).totals
  | cons h hrest ih =>
    obtain ⟨hx, hxs⟩ := List.forall_mem_cons.1 hx
    obtain ⟨hy, hys⟩ := List.forall_mem_cons.1 hy
    exact (ih hxs hys).cons (hn h hx hy)

variable (c xs ys rs t) in
/-- The sum of two decimal numbers and a carry, in the digits and the carry that a row of additions
leaves. -/
structure DecimalSum : Prop where
  length : rs.length = xs.length
  valid : ∀ r ∈ rs, Valid r
  digits : value rs = (value xs + value ys + c.toNat) % 100 ^ xs.length
  carry : t.flag .carry = true ↔ 100 ^ xs.length ≤ value xs + value ys + c.toNat

variable (c xs ys rs t) in
/-- The difference of two decimal numbers, less one if the carry is clear, in the digits and the
carry that a row of subtractions leaves. -/
structure DecimalDifference : Prop where
  length : rs.length = xs.length
  valid : ∀ r ∈ rs, Valid r
  digits : value rs = ((value xs : Int) - value ys - (!c).toNat) % (100 ^ xs.length : Nat)
  carry : t.flag .carry = true ↔ value ys + (!c).toNat ≤ value xs

theorem DecimalTotals.sum (h : DecimalTotals c xs ys rs t) : DecimalSum c xs ys rs t := by
  have hlt := value_lt h.valid
  rw [h.length] at hlt
  obtain ⟨hdigits, hcarry⟩ := LittleEndian.of_carry hlt h.total
  exact ⟨h.length, h.valid, hdigits, hcarry⟩

theorem DecimalTotals.difference (h : DecimalTotals c xs (ys.map nines) rs t)
    (hy : ∀ y ∈ ys, Valid y) : DecimalDifference c xs ys rs t := by
  have hlt := value_lt h.valid
  have htotal := h.total
  have hnines := value_nines hy
  have hlength : ys.length = xs.length := (List.length_map _).symm.trans h.length_ys
  rw [h.length] at hlt
  rw [hlength] at hnines
  have hdifference : (value rs : Int) = value xs - value ys - (!c).toNat +
      (100 ^ xs.length : Nat) * (!t.flag .carry).toNat :=
    LittleEndian.difference_of_total (by omega)
  obtain ⟨hdigits, hcarry⟩ := LittleEndian.of_borrow hlt hdifference
  exact ⟨h.length, h.valid, hdigits, hcarry⟩

theorem Chain.decimalSum (h : Chain .adc true c xs ys rs t) (hx : ∀ x ∈ xs, Valid x)
    (hy : ∀ y ∈ ys, Valid y) : DecimalSum c xs ys rs t := by
  have htotals := h.decimalTotals (f := id) Executes.counts_adc hx hy
  rw [List.map_id] at htotals
  exact htotals.sum

theorem Chain.decimalDifference (h : Chain .sbc true c xs ys rs t) (hx : ∀ x ∈ xs, Valid x)
    (hy : ∀ y ∈ ys, Valid y) : DecimalDifference c xs ys rs t :=
  (h.decimalTotals (f := nines) Executes.counts_sbc hx hy).difference hy

theorem DecimalSum.cancel {us : List UInt8} (h : DecimalSum false xs ys rs t)
    (h' : DecimalDifference true rs ys us u) (hx : ∀ x ∈ xs, Valid x) : us = xs := by
  have hlength := h'.length.trans h.length
  have hlt := value_lt hx
  have hdigits := h'.digits
  rw [h.digits, h.length] at hdigits
  refine value_inj h'.valid hx hlength (Int.ofNat_inj.1 ?_)
  calc (value us : Int)
      = ((value xs + value ys : Nat) - value ys : Int) % (100 ^ xs.length : Nat) := by
        rw [hdigits]
        simp [Int.emod_sub_emod]
    _ = value xs := by
        rw [Int.natCast_add, Int.add_sub_cancel]
        exact Int.emod_eq_of_lt (Int.natCast_nonneg _) (Int.ofNat_lt.2 hlt)

/-- Additions and subtractions of digits, byte after byte, work on decimal numbers of any length,
and a subtraction undoes an addition. -/
theorem long_decimal_arithmetic (hne : xs ≠ []) (hlength : ys.length = xs.length)
    (hx : ∀ x ∈ xs, Valid x) (hy : ∀ y ∈ ys, Valid y) (c : Bool) :
    ((∃ rs t, Chain .adc true c xs ys rs t) ∧
        ∀ rs t, Chain .adc true c xs ys rs t → DecimalSum c xs ys rs t) ∧
      ((∃ rs t, Chain .sbc true c xs ys rs t) ∧
        ∀ rs t, Chain .sbc true c xs ys rs t → DecimalDifference c xs ys rs t) ∧
      ∀ rs t, Chain .adc true false xs ys rs t → (∃ us u, Chain .sbc true true rs ys us u) ∧
        ∀ us u, Chain .sbc true true rs ys us u → us = xs := by
  have hadc : Instruction.decode 0x69 = some ⟨.adc, .immediate⟩ :=
    Instruction.decode_eq_some_iff.2 rfl
  have hsbc : Instruction.decode 0xE9 = some ⟨.sbc, .immediate⟩ :=
    Instruction.decode_eq_some_iff.2 rfl
  refine ⟨⟨exists_chain hadc hne hlength c, ?_⟩, ⟨exists_chain hsbc hne hlength c, ?_⟩, ?_⟩
  · intro rs t h
    exact h.decimalSum hx hy
  · intro rs t h
    exact h.decimalDifference hx hy
  · intro rs t h
    have hsum := h.decimalSum hx hy
    refine ⟨exists_chain hsbc h.ne_nil.2.2 (hlength.trans hsum.length.symm) true, ?_⟩
    intro us u h'
    exact hsum.cancel (h'.decimalDifference hsum.valid hy) hx

theorem long_decimal_arithmetic_overrun : ∃ rs t us u,
    Chain .adc true false [0x99, 0x99] [0x01, 0x00] rs t ∧ value rs = 0 ∧ t.flag .carry = true ∧
      Chain .sbc true true rs [0x01, 0x00] us u ∧ us = [0x99, 0x99] := by
  have hx : ∀ x ∈ [0x99, 0x99], Valid x :=
    List.forall_mem_cons.2 ⟨by decide, List.forall_mem_singleton.2 (by decide)⟩
  have hy : ∀ y ∈ [0x01, 0x00], Valid y :=
    List.forall_mem_cons.2 ⟨by decide, List.forall_mem_singleton.2 (by decide)⟩
  have hlength : [0x01, 0x00].length = [0x99, 0x99].length := rfl
  obtain ⟨⟨⟨rs, t, h⟩, hsum⟩, -, hback⟩ :=
    long_decimal_arithmetic (List.cons_ne_nil _ _) hlength hx hy false
  obtain ⟨⟨us, u, h'⟩, hcancel⟩ := hback rs t h
  obtain ⟨-, -, hdigits, hcarry⟩ := hsum rs t h
  exact ⟨rs, t, us, u, h, hdigits.trans (by decide +kernel), hcarry.2 (by decide +kernel), h',
    hcancel us u h'⟩

end Processor

end Micro6502
