import Micro6502.Assembly.Assembler
import Micro6502.Display.Framebuffer
import Micro6502.HexDump
import Micro6502.MessageLog
import Micro6502.RandomSource
import Micro6502.Scheduler

namespace Micro6502

structure Config where
  origin : UInt16 := 0x0600
  quantum : Nat := 128
  randomAddress : UInt16 := 0x00FE
  keyAddress : UInt16 := 0x00FF
  display : Resolution := .r32
  deriving DecidableEq, Repr

structure Machine where
  config : Config
  processor : Processor
  memory : Memory
  assembler : Assembler
  scheduler : Scheduler
  log : MessageLog
  /-- A program has been assembled, and no full reset has followed. -/
  compiled : Bool

namespace Machine

def plain (c : Config) : Machine where
  config := c
  processor := .initial c.origin
  memory := .blank
  assembler := .ofOrigin c.origin
  scheduler := .ofQuantum c.quantum
  log := .empty
  compiled := false

def withRandom (c : Config) (draw : Nat → UInt32) : Machine :=
  { plain c with memory := Memory.blank.attachRandom c.randomAddress draw }

variable (m : Machine)

def running : Bool := m.scheduler.running

def stop : Machine := { m with scheduler := m.scheduler.stop }

def report (text : String) : Machine := { m with log := m.log.report text }

/-- Stops the machine and restores the registers. A full reset also zeroes memory, which a display
is told of, and forgets that a program was assembled. -/
def reset (full : Bool) : Machine :=
  let m := { m with scheduler := m.scheduler.stop, processor := .initial m.config.origin }
  if full then { m with memory := m.memory.resetNotifying, compiled := false } else m

/-- Assembles a source at the origin, after a full reset. If that succeeds, a zero is stored at the
end address, so that running on from there is a break. -/
def assemble (source : Text) : Except AssemblyError Nat × Machine :=
  let m := m.reset true
  let r := m.assembler.assemble source m.memory
  let m :=
    { m with assembler := r.assembler, memory := r.memory, log := m.log.reportAll r.messages }
  match r.result with
  | .error e => (.error e, m)
  | .ok n =>
    (.ok n, { m with memory := m.memory.write m.assembler.endAddress 0, compiled := true })

def refuse : Machine := m.report "no code to run"

def start : Machine :=
  if m.compiled then { m with scheduler := m.scheduler.start } else m.refuse

/-- Names a fault, then the address before the program counter. -/
def reportHalt (reason : HaltReason) : Machine :=
  let m := if reason.isFault then m.report reason.message else m
  m.report ("Program end at PC=$" ++ String.ofList (Hexadecimal.word (m.processor.pc - 1)))

-- The memory of a machine that runs must not be shared, so the machine is taken apart first.

def tick (m : Machine) : (Nat × Option HaltReason) × Machine :=
  let ⟨config, processor, memory, assembler, scheduler, log, compiled⟩ := m
  let (scheduler, slice) := scheduler.tick processor memory
  let m : Machine :=
    ⟨config, slice.processor, slice.memory, assembler, scheduler, log, compiled⟩
  match slice.halt with
  | some reason => ((slice.executed, some reason), m.reportHalt reason)
  | none => ((slice.executed, none), m)

/-- Executes one instruction, whether the machine is running or not. -/
def step (m : Machine) : Option Outcome × Machine :=
  if m.compiled then
    let ⟨config, processor, memory, assembler, scheduler, log, compiled⟩ := m
    let (outcome, processor, memory) := processor.step memory
    let m : Machine := ⟨config, processor, memory, assembler, scheduler, log, compiled⟩
    match outcome with
    | .running => (some .running, m)
    | .halted reason => (some (.halted reason), m.stop.reportHalt reason)
  else (none, m.refuse)

def ticks : Nat → Machine → Option HaltReason × Machine
  | 0, m => (none, m)
  | n + 1, m =>
    match m.tick with
    | ((_, some reason), m) => (some reason, m)
    | ((_, none), m) => ticks n m

def run (maxTicks : Nat) : Option HaltReason × Machine :=
  let m := m.start
  if m.running then ticks maxTicks m else (none, m)

def keyPress (code : UInt8) : Machine :=
  { m with memory := m.memory.write m.config.keyAddress code }

def attachDisplay : Machine := { m with memory := m.memory.attachDisplay m.config.display }

/-- Changes to another grid, sends the display its cells, and attaches it. -/
def setDisplay (r : Resolution) : Machine :=
  { m with
    config := { m.config with display := r }
    memory := (m.memory.refreshDisplay r).attachDisplay r }

/-- As many bytes from the origin on as the latest program has. -/
def hexDump (ascii : Bool) : List Char :=
  m.memory.hexDump m.assembler.origin m.assembler.codeLength ascii

end Machine

end Micro6502
