import Micro6502.AddressRange

namespace Micro6502

inductive Resolution where
  | r32
  | r48
  | r64
  | r80
  | r96
  | r128
  deriving DecidableEq, Repr

namespace Resolution

def all : List Resolution := [r32, r48, r64, r80, r96, r128]

def side : Resolution → UInt16
  | r32 => 32
  | r48 => 48
  | r64 => 64
  | r80 => 80
  | r96 => 96
  | r128 => 128

def ofSide? (n : UInt16) : Option Resolution := all.find? fun r ↦ r.side = n

variable (r : Resolution)

/-- The smallest grid lies below the usual program origin. The others do not fit there. -/
def base : UInt16 :=
  match r with
  | r32 => 0x0200
  | _ => 0x2000

def cells : UInt16 := r.side * r.side

def last : UInt16 := r.base + r.cells - 1

def range : AddressRange := ⟨r.base, r.last⟩

def offsets : List UInt16 := (List.range r.cells.toNat).map UInt16.ofNat

def position (offset : UInt16) : UInt16 × UInt16 := (offset % r.side, offset / r.side)

end Resolution

end Micro6502
