import Micro6502.AddressingMode
import Micro6502.Source.Numeral

namespace Micro6502

inductive Operand where
  | none
  | hex (digits : Text)
  | decimal (digits : Text)
  | label (name : Text)
  | lowByte (name : Text)
  | highByte (name : Text)
  deriving DecidableEq, Repr

namespace Operand

/-- A dollar sign and at least `least`, at most `most` hexadecimal digits. -/
def hexNumber? (least most : Nat) : Text → Option Operand
  | '$' :: digits =>
    if least ≤ digits.length ∧ digits.length ≤ most ∧ digits.all Numeral.isHexDigit then
      some (hex digits)
    else Option.none
  | _ => Option.none

/-- One to three decimal digits. -/
def decimalNumber? (digits : Text) : Option Operand :=
  if 1 ≤ digits.length ∧ digits.length ≤ 3 ∧ digits.all (Numeral.isDigit 10) then
    some (decimal digits)
  else Option.none

def word? (t : Text) : Option Text :=
  if t ≠ [] ∧ t.all Text.isWordChar then some t else Option.none

def label? (t : Text) : Option Operand := (word? t).map label

def byte? (t : Text) : Option Operand := (hexNumber? 1 2 t).or (decimalNumber? t)

def address? (t : Text) : Option Operand := (hexNumber? 3 4 t).or (label? t)

def constant? : Text → Option Operand
  | '<' :: t => (word? t).map lowByte
  | '>' :: t => (word? t).map highByte
  | t => byte? t

def beforeIndex? (register : Char) (t : Text) : Option Text :=
  match t.reverse with
  | c :: ',' :: rest => if c.toUpper = register then some rest.reverse else Option.none
  | _ => Option.none

def inParentheses? : Text → Option Text
  | '(' :: t =>
    match t.reverse with
    | ')' :: rest => some rest.reverse
    | _ => Option.none
  | _ => Option.none

end Operand

open Operand

def AddressingMode.operand? : AddressingMode → Text → Option Operand
  | single, t => if t = [] ∨ t.capitals = ['A'] then some .none else Option.none
  | immediate, '#' :: t => constant? t
  | immediate, _ => Option.none
  | zeroPage, t => byte? t
  | zeroPageX, t => (beforeIndex? 'X' t).bind byte?
  | zeroPageY, t => (beforeIndex? 'Y' t).bind byte?
  | absolute, t => address? t
  | absoluteX, t => (beforeIndex? 'X' t).bind address?
  | absoluteY, t => (beforeIndex? 'Y' t).bind address?
  | indirectX, t => ((inParentheses? t).bind (beforeIndex? 'X')).bind (hexNumber? 1 2)
  | indirectY, t => ((beforeIndex? 'Y' t).bind inParentheses?).bind (hexNumber? 1 2)
  | relative, t => (hexNumber? 1 4 t).or (label? t)
  | indirect, t => (inParentheses? t).bind fun t ↦ (hexNumber? 1 4 t).or (label? t)

end Micro6502
