import Micro6502.Hook
import Micro6502.Word

namespace Micro6502

/-- A hook is its range and its handler in one, so that the two cannot get out of step: there is no
range without a handler, and no handler without a range. -/
structure Memory where
  cells : Vector UInt8 65536
  readHook : Option ReadHook
  writeHook : Option WriteHook
  calls : Array Call

inductive WriteStep where
  | store
  | notify
  deriving DecidableEq, Repr

namespace Memory

def blank : Memory := ⟨Vector.replicate 65536 0, none, none, #[]⟩

variable (m : Memory)

/-- The stored byte, whatever hook covers it. -/
def peek (a : UInt16) : UInt8 :=
  have := a.toNat_lt
  m.cells[a.toNat]

def store (a : UInt16) (v : UInt8) : Memory :=
  have := a.toNat_lt
  { m with cells := m.cells.set a.toNat v }

def notify (a : UInt16) (v : UInt8) : Memory :=
  match m.writeHook with
  | some h => if h.range.contains a then { m with calls := m.calls.push (h.call a v) } else m
  | none => m

def carryOut (a : UInt16) (v : UInt8) : WriteStep → Memory
  | .store => m.store a v
  | .notify => m.notify a v

/-- The watcher is told after the byte is stored. -/
def writeSteps : List WriteStep := [.store, .notify]

def write (a : UInt16) (v : UInt8) : Memory :=
  writeSteps.foldl (fun m step ↦ m.carryOut a v step) m

-- A memory and its hooks are taken apart before they are updated, so that the cells and the record
-- of addresses are not shared while they grow.

/-- The answer of a read hook, which remembers that it was asked. -/
def consult : Memory → ReadHook → UInt16 → UInt8 × Memory
  | ⟨cells, _, writeHook, calls⟩, ⟨range, reader, asked⟩, a =>
    let asked := asked.push a
    let v := reader.answer asked
    let calls := match reader with
      | .host _ => calls.push (.read a v)
      | .random _ => calls
    (v, ⟨cells, some ⟨range, reader, asked⟩, writeHook, calls⟩)

def read : Memory → UInt16 → UInt8 × Memory
  | ⟨cells, some h, writeHook, calls⟩, a =>
    if h.range.contains a then consult ⟨cells, none, writeHook, calls⟩ h a
    else
      let m : Memory := ⟨cells, some h, writeHook, calls⟩
      (m.peek a, m)
  | ⟨cells, none, writeHook, calls⟩, a =>
    let m : Memory := ⟨cells, none, writeHook, calls⟩
    (m.peek a, m)

def readWord (a : UInt16) : UInt16 × Memory :=
  let (low, m) := m.read a
  let (high, m) := m.read (a + 1)
  (Word.ofBytes low high, m)

/-- Writes bytes from an address on, past the top of memory to its bottom. -/
def load : Memory → UInt16 → List UInt8 → Memory
  | m, _, [] => m
  | m, a, v :: vs => load (m.write a v) (a + 1) vs

def reset : Memory := { m with cells := Vector.replicate 65536 0 }

/-- Zeroes every byte, then tells the watcher of a zero in each address that it watches. -/
def resetNotifying : Memory :=
  match m.writeHook with
  | some h => h.range.addresses.foldl (fun m a ↦ m.notify a 0) m.reset
  | none => m.reset

def clearReadHook : Memory := { m with readHook := none }

def clearWriteHook : Memory := { m with writeHook := none }

/-- Puts a reader in front of a range, in place of the one before. A range that holds no address
leaves no reader. -/
def hookReads (range : AddressRange) (reader : Reader) : Memory :=
  if range.isEmpty then m.clearReadHook else { m with readHook := some ⟨range, reader, #[]⟩ }

def hookWrites (range : AddressRange) (watcher : Watcher) : Memory :=
  if range.isEmpty then m.clearWriteHook else { m with writeHook := some ⟨range, watcher⟩ }

def takeCalls : Array Call × Memory := (m.calls, { m with calls := #[] })

variable {m} {a b : UInt16} {v : UInt8}

@[simp] theorem peek_blank : blank.peek a = 0 := by
  simp [peek, blank]

@[simp] theorem peek_reset : m.reset.peek a = 0 := by
  simp [peek, reset]

theorem peek_store : (m.store a v).peek b = if a = b then v else m.peek b := by
  simp [peek, store, Vector.getElem_set, UInt16.toNat_inj]

@[simp] theorem cells_notify : (m.notify a v).cells = m.cells := by
  unfold notify
  split <;> (try split) <;> rfl

@[simp] theorem peek_notify : (m.notify a v).peek b = m.peek b := by
  simp [peek]

theorem write_eq (m : Memory) (a : UInt16) (v : UInt8) :
    m.write a v = (m.store a v).notify a v := rfl

theorem peek_write : (m.write a v).peek b = if a = b then v else m.peek b := by
  rw [write_eq, peek_notify, peek_store]

theorem read_eq (m : Memory) (a : UInt16) :
    m.read a = match m.readHook with
      | some h => if h.range.contains a then m.consult h a else (m.peek a, m)
      | none => (m.peek a, m) := by
  obtain ⟨cells, _ | h, writeHook, calls⟩ := m <;> rfl

@[simp] theorem cells_read : (m.read a).2.cells = m.cells := by
  rw [read_eq]
  split <;> (try split) <;> rfl

@[simp] theorem peek_read : (m.read a).2.peek b = m.peek b := by
  simp [peek]

@[simp] theorem writeHook_read : (m.read a).2.writeHook = m.writeHook := by
  rw [read_eq]
  split <;> (try split) <;> rfl

@[simp] theorem peek_resetNotifying : m.resetNotifying.peek a = 0 := by
  have h : ∀ (l : List UInt16) (m : Memory),
      (l.foldl (fun m a ↦ m.notify a 0) m).cells = m.cells := by
    intro l
    induction l with
    | nil => intro m; rfl
    | cons b l ih => intro m; simp [ih]
  unfold resetNotifying
  split
  · rw [peek]
    simp only [h]
    exact peek_reset
  · exact peek_reset

end Memory

end Micro6502
