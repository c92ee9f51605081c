namespace Micro6502.Hexadecimal

def digit (n : Nat) : Char :=
  if n < 10 then Char.ofNat (48 + n) else Char.ofNat (55 + n)

def byte (b : UInt8) : List Char := [digit (b.toNat / 16), digit (b.toNat % 16)]

def word (w : UInt16) : List Char :=
  [digit (w.toNat / 4096), digit (w.toNat / 256 % 16), digit (w.toNat / 16 % 16),
    digit (w.toNat % 16)]

end Micro6502.Hexadecimal
