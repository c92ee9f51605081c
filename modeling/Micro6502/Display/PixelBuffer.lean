import Micro6502.Display.Resolution
import Micro6502.Hook

namespace Micro6502

structure PixelBuffer where
  side : Nat
  pixels : Array UInt8
  deriving DecidableEq, Repr

namespace PixelBuffer

def blank (r : Resolution) : PixelBuffer := ⟨r.side.toNat, Array.replicate r.cells.toNat 0⟩

variable (b : PixelBuffer)

def get (x y : UInt16) : Option UInt8 :=
  if x.toNat < b.side ∧ y.toNat < b.side then b.pixels[y.toNat * b.side + x.toNat]? else none

def set (offset : UInt16) (color : UInt8) : PixelBuffer :=
  { b with pixels := b.pixels.setIfInBounds offset.toNat color }

/-- Draws the pixels among the calls that a memory has made. -/
def draw (calls : Array Call) : PixelBuffer :=
  calls.foldl (fun b c ↦ match c with
    | .pixel offset color => b.set offset color
    | _ => b) b

def lit : List (Nat × UInt8) :=
  b.pixels.toList.zipIdx.filterMap fun (color, i) ↦ if color = 0 then none else some (i, color)

end PixelBuffer

end Micro6502
