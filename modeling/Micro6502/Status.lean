namespace Micro6502

inductive Flag where
  | carry
  | zero
  | interruptDisable
  | decimal
  | brk
  | unused
  | overflow
  | negative
  deriving DecidableEq, Repr

def Flag.mask : Flag → UInt8
  | carry => 0x01
  | zero => 0x02
  | interruptDisable => 0x04
  | decimal => 0x08
  | brk => 0x10
  | unused => 0x20
  | overflow => 0x40
  | negative => 0x80

abbrev Status := UInt8

namespace Status

def has (p : Status) (mask : UInt8) : Bool := p &&& mask == mask

/-- Bit 5 stays on whenever a flag is set or cleared. -/
def assign (p : Status) (mask : UInt8) (on : Bool) : Status :=
  (if on then p ||| mask else p &&& ~~~mask) ||| Flag.unused.mask

def ofByte (b : UInt8) : Status := b ||| Flag.unused.mask

end Status

end Micro6502
