import Micro6502.Source.Text

namespace Micro6502.Numeral

/-- The value of a digit, 16 for a character that is none. -/
def digit (c : Char) : Nat :=
  if c.isDigit then c.toNat - 48
  else if 'a' ≤ c ∧ c ≤ 'f' then c.toNat - 87
  else if 'A' ≤ c ∧ c ≤ 'F' then c.toNat - 55
  else 16

def isDigit (base : Nat) (c : Char) : Bool := digit c < base

def isHexDigit : Char → Bool := isDigit 16

def value (base : Nat) (digits : Text) : Nat := digits.foldl (fun n c ↦ n * base + digit c) 0

def limit : Nat := 0x100000000

def ofDigits? (base : Nat) (digits : Text) : Option Nat :=
  if digits ≠ [] ∧ digits.all (isDigit base) ∧ value base digits < limit then
    some (value base digits)
  else none

/-- A plus sign may stand between the mark of the base and the digits. -/
def dropPlus : Text → Text
  | '+' :: t => t
  | t => t

/-- A numeral is hexadecimal after a dollar sign, binary after a percent sign, else decimal. Blanks
around it do not count. -/
def parse? (t : Text) : Option Nat :=
  match t.trim with
  | '$' :: digits => ofDigits? 16 (dropPlus digits)
  | '%' :: digits => ofDigits? 2 (dropPlus digits)
  | digits => ofDigits? 10 digits

end Micro6502.Numeral
