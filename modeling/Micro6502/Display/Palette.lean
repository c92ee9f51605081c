namespace Micro6502

inductive Palette where
  | appleIIe
  | c64
  | c64Alt
  | cga
  | windows
  | mono
  deriving DecidableEq, Repr

namespace Palette

def standard : Palette := windows

def name : Palette → String
  | appleIIe => "AppleIIe"
  | c64 => "C64"
  | c64Alt => "C64Alt"
  | cga => "Cga"
  | windows => "Windows"
  | mono => "Mono"

def all : List Palette := [appleIIe, c64, c64Alt, cga, windows, mono]

def ofName? (text : String) : Option Palette := all.find? fun p ↦ p.name = text

def colors : Palette → Vector UInt32 16
  | appleIIe =>
    #v[0x000000, 0xDD0033, 0x000099, 0xDD22DD, 0x007722, 0x555555, 0x2222FF, 0x66AAFF,
      0x885500, 0xFF6600, 0xAAAAAA, 0xFF9988, 0x11DD00, 0xFFFF00, 0x44FF99, 0xFFFFFF]
  | c64 =>
    #v[0x000000, 0xFFFFFF, 0x880000, 0xAAFFEE, 0xCC44CC, 0x00CC55, 0x0000AA, 0xEEEE77,
      0xDD8855, 0x664400, 0xFF7777, 0x333333, 0x777777, 0xAAFF66, 0x0088FF, 0xBBBBBB]
  | c64Alt =>
    #v[0x000000, 0xFFFFFF, 0x880000, 0x66BBBB, 0x994499, 0x559944, 0x0000AA, 0xDDDD66,
      0xDD7733, 0x664400, 0xDD5555, 0x333333, 0x777777, 0x55CC55, 0x4477EE, 0xBBBBBB]
  | cga =>
    #v[0x000000, 0x0000AA, 0x00AA00, 0x00AAAA, 0xAA0000, 0xAA00AA, 0xAA5500, 0xAAAAAA,
      0x555555, 0x5555FF, 0x55FF55, 0x55FFFF, 0xFF5555, 0xFF55FF, 0xFFFF55, 0xFFFFFF]
  | windows =>
    #v[0x000000, 0x880000, 0x008800, 0x888800, 0x000088, 0x880088, 0x008888, 0xCCCCCC,
      0x888888, 0xFF0000, 0x00FF00, 0xFFFF00, 0x0000FF, 0xFF00FF, 0x00FFFF, 0xFFFFFF]
  | mono =>
    #v[0x000000, 0x111111, 0x222222, 0x333333, 0x444444, 0x555555, 0x666666, 0x777777,
      0x888888, 0x999999, 0xAAAAAA, 0xBBBBBB, 0xCCCCCC, 0xDDDDDD, 0xEEEEEE, 0xFFFFFF]

/-- The color of a byte, of which the low four bits count. -/
def rgb (p : Palette) (color : UInt8) : UInt32 := p.colors[color.toNat % 16]

end Palette

end Micro6502
