namespace Micro6502

abbrev Text := List Char

namespace Text

def blanks : List (Nat × Nat) :=
  [(0x09, 0x0D), (0x20, 0x20), (0x85, 0x85), (0xA0, 0xA0), (0x1680, 0x1680), (0x2000, 0x200A),
    (0x2028, 0x2029), (0x202F, 0x202F), (0x205F, 0x205F), (0x3000, 0x3000)]

def isBlank (c : Char) : Bool := blanks.any fun (lo, hi) ↦ lo ≤ c.toNat && c.toNat ≤ hi

/-- The characters of labels and mnemonics: ASCII letters and digits, and the underscore. -/
def isWordChar (c : Char) : Bool := c.isAlphanum || c == '_'

def skip (t : Text) : Text := t.dropWhile isBlank

def trim (t : Text) : Text := (skip (skip t).reverse).reverse

def capitals (t : Text) : Text := t.map Char.toUpper

/-- The lines of a text. A line feed ends a line and takes the carriage return before it along.
The last line need not be ended. -/
def lines : Text → List Text
  | [] => []
  | '\r' :: '\n' :: rest => [] :: lines rest
  | '\n' :: rest => [] :: lines rest
  | c :: rest =>
    match lines rest with
    | [] => [[c]]
    | line :: more => (c :: line) :: more

end Text

end Micro6502
