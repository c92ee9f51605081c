import Micro6502.AddressRange

namespace Micro6502

/-- What answers the reads of a range in place of the stored bytes. It is given every address that
it has been asked so far, the present one last. -/
inductive Reader where
  | host (answer : Array UInt16 → UInt8)
  | random (draw : Nat → UInt32)

namespace Reader

def answer : Reader → Array UInt16 → UInt8
  | host f, asked => f asked
  | random draw, asked => (draw (asked.size - 1)).toUInt8

end Reader

inductive Watcher where
  | host
  | display
  deriving DecidableEq, Repr

inductive Call where
  | read (address : UInt16) (value : UInt8)
  | write (address : UInt16) (value : UInt8)
  | pixel (offset : UInt16) (color : UInt8)
  deriving DecidableEq, Repr

structure ReadHook where
  range : AddressRange
  reader : Reader
  asked : Array UInt16

structure WriteHook where
  range : AddressRange
  watcher : Watcher
  deriving DecidableEq, Repr

def colorOf (value : UInt8) : UInt8 := value &&& 0x0F

def WriteHook.call (h : WriteHook) (address : UInt16) (value : UInt8) : Call :=
  match h.watcher with
  | .host => .write address value
  | .display => .pixel (address - h.range.lo) (colorOf value)

end Micro6502
