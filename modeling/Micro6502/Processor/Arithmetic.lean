import Micro6502.Processor.Basic

namespace Micro6502

structure Sum where
  value : UInt8
  carry : Bool
  overflow : Bool
  deriving DecidableEq, Repr

namespace Sum

def sameSign (a v : UInt8) : Bool := (a ^^^ v) &&& 0x80 == 0

/-- Whether a total of two bytes, as read without sign, is one that a signed byte cannot hold.
The signs of the operands must allow it as well. -/
def leavesRange (total : Int) : Bool := 0x80 ≤ total && total < 0x180

def addBinary (a v : UInt8) (carry : Bool) : Sum :=
  let total := a.toNat + v.toNat + carry.toNat
  ⟨UInt8.ofNat total, 0x100 ≤ total, sameSign a v && leavesRange total⟩

/-- The low digits are corrected first, then the whole at one hundred. The overflow is that of the
total before the second correction. -/
def addDecimal (a v : UInt8) (carry : Bool) : Sum :=
  let low := a.toNat % 16 + v.toNat % 16 + carry.toNat
  let low := if low < 10 then low else 16 + (low + 6) % 16
  let total := low + a.toNat / 16 * 16 + v.toNat / 16 * 16
  ⟨UInt8.ofNat (if total < 0xA0 then total else total + 0x60), 0xA0 ≤ total,
    sameSign a v && leavesRange total⟩

def subtractBinary (a v : UInt8) (carry : Bool) : Sum :=
  let total := 0xFF + a.toNat - v.toNat + carry.toNat
  ⟨UInt8.ofNat total, 0x100 ≤ total, !sameSign a v && leavesRange total⟩

/-- A borrow of the low digit takes six more from it and one from the high digits, and a borrow of
the high digits takes sixty more. -/
def subtractDecimal (a v : UInt8) (carry : Bool) : Sum :=
  let low : Int := 0x0F + (a.toNat % 16 : Nat) - (v.toNat % 16 : Nat) + carry.toNat
  let (low, lowCarry) : Int × Int := if low < 0x10 then (low - 6, 0) else (low - 0x10, 0x10)
  let total : Int :=
    lowCarry + 0xF0 + (a.toNat / 16 * 16 : Nat) - (v.toNat / 16 * 16 : Nat)
  ⟨UInt8.ofInt ((if total < 0x100 then total - 0x60 else total) + low), 0x100 ≤ total,
    !sameSign a v && leavesRange total⟩

end Sum

inductive Shift where
  | asl
  | lsr
  | rol
  | ror
  deriving DecidableEq, Repr

def Shift.apply (k : Shift) (v : UInt8) (carry : Bool) : UInt8 × Bool :=
  match k with
  | asl => (v <<< 1, v &&& 0x80 != 0)
  | lsr => (v >>> 1, v &&& 0x01 != 0)
  | rol => (v <<< 1 ||| (if carry then 0x01 else 0), v &&& 0x80 != 0)
  | ror => (v >>> 1 ||| (if carry then 0x80 else 0), v &&& 0x01 != 0)

namespace Processor

variable (s : Processor)

def setSum (r : Sum) : Processor :=
  ((s.setFlag .carry r.carry).setFlag .overflow r.overflow).load .a r.value

def addWithCarry (v : UInt8) : Processor :=
  s.setSum <|
    if s.flag .decimal then Sum.addDecimal s.a v (s.flag .carry)
    else Sum.addBinary s.a v (s.flag .carry)

def subtractWithCarry (v : UInt8) : Processor :=
  s.setSum <|
    if s.flag .decimal then Sum.subtractDecimal s.a v (s.flag .carry)
    else Sum.subtractBinary s.a v (s.flag .carry)

def compare (r v : UInt8) : Processor :=
  (s.setFlag .carry (v ≤ r)).setZeroNegative (r - v)

def bitTest (v : UInt8) : Processor :=
  ((s.setFlag .zero (s.a &&& v == 0)).setFlag .negative (v &&& 0x80 != 0)).setFlag .overflow
    (v &&& 0x40 != 0)

end Processor

end Micro6502
