namespace Micro6502

/-- Messages are kept for a listener while one is attached, and lost otherwise. -/
structure MessageLog where
  messages : Array String
  attached : Bool
  deriving DecidableEq, Repr

namespace MessageLog

def empty : MessageLog := ⟨#[], false⟩

variable (log : MessageLog)

def attach : MessageLog := { log with attached := true }

def detach : MessageLog := { log with attached := false }

def clear : MessageLog := { log with messages := #[] }

def report (text : String) : MessageLog :=
  if log.attached then { log with messages := log.messages.push text } else log

def reportAll (texts : List String) : MessageLog := texts.foldl report log

def occursIn (needle : List Char) : List Char → Bool
  | [] => needle.isEmpty
  | c :: rest => needle.isPrefixOf (c :: rest) || occursIn needle rest

def contains (text : String) : Bool := log.messages.any fun m ↦ occursIn text.toList m.toList

def last? : Option String := log.messages.back?

end MessageLog

end Micro6502
