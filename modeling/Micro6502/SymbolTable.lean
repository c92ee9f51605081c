import Micro6502.Source.Text

namespace Micro6502

structure Symbol where
  name : Text
  address : UInt16
  line : Nat
  deriving DecidableEq, Repr

structure SymbolTable where
  symbols : List Symbol
  deriving DecidableEq, Repr

namespace SymbolTable

def empty : SymbolTable := ⟨[]⟩

variable (t : SymbolTable)

def find? (name : Text) : Option Symbol := t.symbols.find? (·.name = name)

def address? (name : Text) : Option UInt16 := (t.find? name).map Symbol.address

def size : Nat := t.symbols.length

/-- Enters a symbol behind the others. If its name is taken, the symbol that has it is returned. -/
def insert (s : Symbol) : Except Symbol SymbolTable :=
  match t.find? s.name with
  | some existing => .error existing
  | none => .ok ⟨t.symbols ++ [s]⟩

end SymbolTable

end Micro6502
