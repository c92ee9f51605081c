import Micro6502.Source.Numeral

namespace Micro6502

inductive Statement where
  | empty
  | relocate (target : Text)
  | bytes (list : Text)
  | instruction (mnemonic operand : Text)
  deriving DecidableEq, Repr

structure Line where
  label : Option Text
  statement : Statement
  deriving DecidableEq, Repr

namespace Line

def code (line : Text) : Text := Text.trim (line.takeWhile (· ≠ ';'))

/-- Separates a label from what follows it. A line feed in what follows leaves no label. -/
def splitLabel (code : Text) : Option Text × Text :=
  match code.dropWhile Text.isWordChar with
  | ':' :: rest =>
    if code.takeWhile Text.isWordChar ≠ [] ∧ '\n' ∉ Text.skip rest then
      (some (code.takeWhile Text.isWordChar), Text.trim rest)
    else (none, code)
  | _ => (none, code)

def isTarget : Text → Bool
  | '$' :: digits => digits.all Numeral.isHexDigit
  | digits => digits.all Numeral.isHexDigit

def relocation? : Text → Option Text
  | '*' :: rest =>
    match Text.skip rest with
    | '=' :: target => if isTarget (Text.skip target) then some (Text.skip target) else none
    | _ => none
  | _ => none

def words? (code : Text) : Option (Text × Text) :=
  let word := code.takeWhile Text.isWordChar
  let rest := code.dropWhile Text.isWordChar
  if word = [] ∨ '\n' ∈ Text.skip rest then none
  else
    match rest with
    | [] => some (word, [])
    | c :: _ => if Text.isBlank c then some (word, Text.skip rest) else none

def bytesWord : Text := ['D', 'C', 'B']

/-- An instruction or a list of bytes. The mnemonic may be in either case, and spaces in the operand
do not count. -/
def instruction? (code : Text) : Option Statement :=
  (words? code).map fun (word, operand) ↦
    let operand := operand.filter (· ≠ ' ')
    if Text.capitals word = bytesWord then .bytes operand
    else .instruction (Text.capitals word) operand

def statement? (code : Text) : Option Statement :=
  if code = [] then some .empty
  else
    match relocation? code with
    | some target => some (.relocate target)
    | none => instruction? code

/-- Reads a line, unless it has none of the known shapes. -/
def parse? (line : Text) : Option Line :=
  let (label, rest) := splitLabel (code line)
  (statement? rest).map (⟨label, ·⟩)

end Line

end Micro6502
