namespace Micro6502.Word

def ofBytes (low high : UInt8) : UInt16 := high.toUInt16 <<< 8 ||| low.toUInt16

def low (w : UInt16) : UInt8 := w.toUInt8

def high (w : UInt16) : UInt8 := (w >>> 8).toUInt8

theorem toNat_low (w : UInt16) : (low w).toNat = w.toNat % 256 := by
  simp [low]

theorem toNat_high (w : UInt16) : (high w).toNat = w.toNat / 256 := by
  have := w.toNat_lt
  simp only [high, UInt16.toNat_toUInt8, UInt16.toNat_shiftRight, UInt16.reduceToNat,
    Nat.shiftRight_eq_div_pow, Nat.reduceMod, Nat.reducePow]
  omega

theorem low_eq (w : UInt16) : low w = UInt8.ofNat (w.toNat % 256) := by
  rw [← toNat_low, UInt8.ofNat_toNat]

theorem high_eq (w : UInt16) : high w = UInt8.ofNat (w.toNat / 256) := by
  rw [← toNat_high, UInt8.ofNat_toNat]

theorem toNat_ofBytes (l h : UInt8) : (ofBytes l h).toNat = h.toNat * 256 + l.toNat := by
  have hl := l.toNat_lt
  have hh := h.toNat_lt
  simp only [ofBytes, UInt16.toNat_or, UInt16.toNat_shiftLeft, UInt8.toNat_toUInt16,
    UInt16.reduceToNat, Nat.shiftLeft_eq, Nat.reduceMod]
  rw [Nat.mod_eq_of_lt (by omega), Nat.mul_comm, ← Nat.two_pow_add_eq_or_of_lt hl, Nat.mul_comm]

theorem ofBytes_low_high (w : UInt16) : ofBytes (low w) (high w) = w := by
  apply UInt16.toNat_inj.1
  rw [toNat_ofBytes, toNat_low, toNat_high]
  omega

theorem low_ofBytes (l h : UInt8) : low (ofBytes l h) = l := by
  apply UInt8.toNat_inj.1
  have := l.toNat_lt
  rw [toNat_low, toNat_ofBytes]
  omega

theorem high_ofBytes (l h : UInt8) : high (ofBytes l h) = h := by
  apply UInt8.toNat_inj.1
  have := l.toNat_lt
  rw [toNat_high, toNat_ofBytes]
  omega

end Micro6502.Word
