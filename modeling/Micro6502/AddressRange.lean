namespace Micro6502

/-- A range whose bounds are the wrong way round holds no address. -/
structure AddressRange where
  lo : UInt16
  hi : UInt16
  deriving DecidableEq, Repr

namespace AddressRange

variable (r : AddressRange)

def contains (a : UInt16) : Bool := r.lo ≤ a && a ≤ r.hi

def size : Nat := r.hi.toNat + 1 - r.lo.toNat

def isEmpty : Bool := r.hi < r.lo

def addresses : List UInt16 := (List.range' r.lo.toNat r.size).map UInt16.ofNat

theorem contains_iff {a : UInt16} :
    r.contains a = true ↔ r.lo.toNat ≤ a.toNat ∧ a.toNat ≤ r.hi.toNat := by
  simp [contains, UInt16.le_iff_toNat_le]

theorem mem_addresses {a : UInt16} : a ∈ r.addresses ↔ r.contains a = true := by
  have hhi := r.hi.toNat_lt
  rw [contains_iff]
  simp only [addresses, List.mem_map, List.mem_range'_1, size]
  constructor
  · rintro ⟨n, hn, rfl⟩
    rw [UInt16.toNat_ofNat_of_lt' (by simp only [UInt16.size]; omega)]
    omega
  · intro h
    exact ⟨a.toNat, by omega, UInt16.ofNat_toNat⟩

end AddressRange

end Micro6502
