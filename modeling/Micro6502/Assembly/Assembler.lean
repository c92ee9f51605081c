import Micro6502.Assembly.Pass
import Micro6502.Memory

namespace Micro6502

structure Assembler where
  origin : UInt16
  symbols : SymbolTable
  codeLength : Nat
  /-- The address behind the last line of the latest program. -/
  endAddress : UInt16
  deriving DecidableEq, Repr

structure Assembly where
  result : Except AssemblyError Nat
  messages : List String
  assembler : Assembler
  memory : Memory

namespace Memory

def writeAll (m : Memory) (ws : List Write) : Memory := ws.foldl (fun m w ↦ m.write w.1 w.2) m

end Memory

namespace Assembler

def ofOrigin (origin : UInt16) : Assembler := ⟨origin, .empty, 0, origin⟩

/-- An assembler that has been given no origin has no end address either. -/
def standard : Assembler := ⟨0x0600, .empty, 0, 0⟩

variable (a : Assembler)

def startSymbols : Pass → SymbolTable
  | .index => .empty
  | .commit => a.symbols

def walk (pass : Pass) (source : Text) : Pass.Result :=
  pass.walk 1 a.origin.toNat (a.startSymbols pass) source.lines

/-- The assembler after a pass. The length and the end of the program change only if a commit pass
reaches the end of the source. -/
def afterPass (pass : Pass) (r : Pass.Result) : Assembler :=
  match pass, r.counter with
  | .commit, .ok pc =>
    { a with symbols := r.symbols, codeLength := r.writes.length, endAddress := UInt16.ofNat pc }
  | _, _ => { a with symbols := r.symbols }

def runPass (pass : Pass) (source : Text) : Except LineFailure Nat × List Write × Assembler :=
  let r := a.walk pass source
  (r.counter.map fun _ ↦ r.writes.length, r.writes, a.afterPass pass r)

def foundMessage (n : Nat) : String := "found " ++ n.repr ++ (if n = 1 then " label" else " labels")

/-- Assembles a source into memory. Bytes that the commit pass yields before it fails stay there. -/
def assemble (source : Text) (m : Memory) : Assembly :=
  let started := ["indexing labels..."]
  let (indexed, _, a) := a.runPass .index source
  match indexed with
  | .error f => ⟨.error (.line f), started ++ f.report, a, m⟩
  | .ok _ =>
    let started := started ++ [foundMessage a.symbols.size, "compiling code..."]
    let (committed, writes, a) := a.runPass .commit source
    let m := m.writeAll writes
    match committed with
    | .error f => ⟨.error (.line f), started ++ f.report, a, m⟩
    | .ok 0 => ⟨.error .noCode, started ++ ["no code to run"], a, m⟩
    | .ok n =>
      ⟨.ok n, started ++ ["code compiled successfully: " ++ n.repr ++ " bytes"], a, m⟩

end Assembler

end Micro6502
