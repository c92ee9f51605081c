import Micro6502.Machine
import Micro6502.Proofs.Assembler

namespace Micro6502

theorem Scheduler.running_tick (t : Scheduler) (s : Processor) (m : Memory) :
    (t.tick s m).1.running = (t.running && (t.tick s m).2.halt.isNone) := by
  unfold tick
  by_cases ht : t.running
  · simp only [if_pos ht]
    cases (s.run m t.quantum).halt with
    | none => exact (Bool.and_true _).symm
    | some reason => exact (Bool.and_false _).symm
  · simp only [if_neg ht]
    exact (Bool.and_true _).symm

theorem Scheduler.tick_of_stopped {t : Scheduler} (h : t.running = false) (s : Processor)
    (m : Memory) : t.tick s m = (t, ⟨0, none, s, m⟩) := by
  rw [tick, h]
  rfl

namespace Machine

/-- What can be done to a machine. With access to the processor and the memory its host can leave
anything in them, hooks included, and it can listen with any log. -/
inductive Action where
  | assemble (source : Text)
  | start
  | stop
  | tick
  | step
  | run (maxTicks : Nat)
  | reset (full : Bool)
  | keyPress (code : UInt8)
  | hookReads (range : AddressRange) (reader? : Option Reader)
  | hookWrites (range : AddressRange) (watcher? : Option Watcher)
  | attachDisplay
  | setDisplay (r : Resolution)
  | read (a : UInt16)
  | access (processor : Processor) (memory : Memory)
  | listen (log : MessageLog)

def act (m : Machine) : Action → Machine
  | .assemble source => (m.assemble source).2
  | .start => m.start
  | .stop => m.stop
  | .tick => m.tick.2
  | .step => m.step.2
  | .run maxTicks => (m.run maxTicks).2
  | .reset full => m.reset full
  | .keyPress code => m.keyPress code
  | .hookReads range (some reader) => { m with memory := m.memory.hookReads range reader }
  | .hookReads _ none => { m with memory := m.memory.clearReadHook }
  | .hookWrites range (some watcher) => { m with memory := m.memory.hookWrites range watcher }
  | .hookWrites _ none => { m with memory := m.memory.clearWriteHook }
  | .attachDisplay => m.attachDisplay
  | .setDisplay r => m.setDisplay r
  | .read a => { m with memory := (m.memory.read a).2 }
  | .access processor memory => { m with processor := processor, memory := memory }
  | .listen log => { m with log := log }

def after (m : Machine) (as : List Action) : Machine := as.foldl act m

def fresh (c : Config) : Option (Nat → UInt32) → Machine
  | none => plain c
  | some draw => withRandom c draw

namespace Action

/-- The operations that throw the program away. An assembly may put another in its place. -/
def discards : Action → Bool
  | assemble _ | reset true => true
  | _ => false

def starts : Action → Bool
  | start | run _ => true
  | _ => false

end Action

variable (m : Machine)

def haltsIn : Action → Bool
  | .tick => m.tick.1.2.isSome
  | .step => (m.step.1.bind Outcome.reason?).isSome
  | .run maxTicks => (m.run maxTicks).1.isSome
  | _ => false

theorem reportHalt_eq (reason : HaltReason) :
    ∃ log, m.reportHalt reason = { m with log := log } := by
  unfold reportHalt
  split
  · exact ⟨_, rfl⟩
  · exact ⟨_, rfl⟩

def slice : Slice := (m.scheduler.tick m.processor m.memory).2

def ticked : Machine :=
  { m with
    processor := m.slice.processor
    memory := m.slice.memory
    scheduler := (m.scheduler.tick m.processor m.memory).1 }

theorem tick_eq_match : m.tick = match m.slice.halt with
    | some reason => ((m.slice.executed, some reason), m.ticked.reportHalt reason)
    | none => ((m.slice.executed, none), m.ticked) := by
  cases m
  rfl

theorem tick_eq : ∃ log, m.tick =
    ((m.slice.executed, m.slice.halt), { m.ticked with log := log }) := by
  rw [tick_eq_match]
  cases m.slice.halt with
  | none => exact ⟨m.ticked.log, rfl⟩
  | some reason =>
    obtain ⟨log, hlog⟩ := m.ticked.reportHalt_eq reason
    exact ⟨log, congrArg _ hlog⟩

def stepped : Machine :=
  let r := m.processor.step m.memory
  { m with
    processor := r.2.1
    memory := r.2.2
    scheduler := if r.1 = .running then m.scheduler else m.scheduler.stop }

theorem step_eq (h : m.compiled = true) : ∃ log, m.step =
    (some (m.processor.step m.memory).1, { m.stepped with log := log }) := by
  obtain ⟨config, processor, memory, assembler, scheduler, log, compiled⟩ := m
  obtain rfl : compiled = true := h
  rw [step, if_pos rfl, stepped]
  -- What the instruction does is of no account here, and too much to unfold.
  generalize processor.step memory = r
  obtain ⟨outcome, processor', memory'⟩ := r
  cases outcome with
  | running => exact ⟨log, rfl⟩
  | halted reason =>
    obtain ⟨log', hlog⟩ := reportHalt_eq
      ⟨config, processor', memory', assembler, scheduler.stop, log, true⟩ reason
    exact ⟨log', congrArg _ hlog⟩

theorem step_of_uncompiled (h : m.compiled = false) : m.step = (none, m.refuse) := by
  rw [step, if_neg (Bool.eq_false_iff.1 h)]

theorem start_of_uncompiled (h : m.compiled = false) : m.start = m.refuse := by
  rw [start, if_neg (Bool.eq_false_iff.1 h)]

/-- The program, and what it was assembled for. Running it leaves all that as it is. -/
def program : Config × Assembler × Bool := (m.config, m.assembler, m.compiled)

theorem program_start : m.start.program = m.program := by
  unfold start
  split
  · rfl
  · rfl

theorem program_tick : m.tick.2.program = m.program := by
  obtain ⟨log, h⟩ := m.tick_eq
  rw [h]
  rfl

theorem program_step : m.step.2.program = m.program := by
  cases hc : m.compiled with
  | false =>
    rw [m.step_of_uncompiled hc]
    rfl
  | true =>
    obtain ⟨log, h⟩ := m.step_eq hc
    simp only [program, h, stepped]

theorem running_start : m.start.running = (m.compiled || m.running) := by
  unfold start
  cases hc : m.compiled with
  | true => rfl
  | false => rfl

theorem running_tick : m.tick.2.running = (m.running && m.tick.1.2.isNone) := by
  obtain ⟨log, h⟩ := m.tick_eq
  rw [h]
  exact Scheduler.running_tick _ _ _

theorem running_step :
    m.step.2.running = (m.running && (m.step.1.bind Outcome.reason?).isNone) := by
  cases hc : m.compiled with
  | false =>
    rw [m.step_of_uncompiled hc]
    exact (Bool.and_true _).symm
  | true =>
    obtain ⟨log, h⟩ := m.step_eq hc
    rw [running, h]
    simp only [stepped]
    cases (m.processor.step m.memory).1 with
    | running => exact (Bool.and_true _).symm
    | halted reason => exact (Bool.and_false _).symm

theorem ticks_succ (n : Nat) (m : Machine) : ticks (n + 1) m = match m.tick.1.2 with
    | some reason => (some reason, m.tick.2)
    | none => ticks n m.tick.2 := by
  rw [ticks]
  generalize m.tick = r
  obtain ⟨⟨executed, _ | reason⟩, m'⟩ := r
  · rfl
  · rfl

theorem program_ticks (n : Nat) (m : Machine) : (ticks n m).2.program = m.program := by
  induction n generalizing m with
  | zero => rfl
  | succ n ih =>
    rw [ticks_succ, ← m.program_tick]
    cases m.tick.1.2 with
    | some reason => rfl
    | none => exact ih m.tick.2

theorem running_ticks (n : Nat) (m : Machine) :
    (ticks n m).2.running = (m.running && (ticks n m).1.isNone) := by
  induction n generalizing m with
  | zero => exact (Bool.and_true _).symm
  | succ n ih =>
    have hrunning := m.running_tick
    rw [ticks_succ]
    cases hhalt : m.tick.1.2 with
    | some reason =>
      rw [hhalt] at hrunning
      exact hrunning
    | none =>
      rw [hhalt, Option.isNone_none, Bool.and_true] at hrunning
      rw [← hrunning]
      exact ih m.tick.2

theorem program_run (n : Nat) : (m.run n).2.program = m.program := by
  rw [← m.program_start, run]
  split
  · exact program_ticks n m.start
  · rfl

theorem running_run (n : Nat) :
    (m.run n).2.running = ((m.compiled || m.running) && (m.run n).1.isNone) := by
  rw [← m.running_start, run]
  cases hstart : m.start.running with
  | true =>
    refine (running_ticks n m.start).trans ?_
    rw [hstart]
    rfl
  | false => exact hstart

def assembly (source : Text) : Assembly :=
  m.assembler.assemble source m.memory.resetNotifying

theorem assemble_eq (source : Text) : m.assemble source =
    let r := m.assembly source
    (r.result,
      { m with
        processor := .initial m.config.origin
        memory := if r.result.isOk then r.memory.write r.assembler.endAddress 0 else r.memory
        assembler := r.assembler
        scheduler := m.scheduler.stop
        log := m.log.reportAll r.messages
        compiled := r.result.isOk }) := by
  have hr : (m.reset true).assembler.assemble source (m.reset true).memory =
      m.assembly source := rfl
  simp only [assemble, hr]
  obtain ⟨result, messages, assembler, memory⟩ := m.assembly source
  cases result with
  | error e => rfl
  | ok n => rfl

variable {m} {a : Action}

theorem compiled_act_of_discards_eq_false (h : a.discards = false) :
    (m.act a).compiled = m.compiled := by
  cases a with
  | assemble source => cases h
  | start => exact congrArg (·.2.2) m.program_start
  | tick => exact congrArg (·.2.2) m.program_tick
  | step => exact congrArg (·.2.2) m.program_step
  | run maxTicks => exact congrArg (·.2.2) (m.program_run maxTicks)
  | reset full =>
    cases full with
    | false => rfl
    | true => cases h
  | hookReads range reader? => cases reader? <;> rfl
  | hookWrites range watcher? => cases watcher? <;> rfl
  | _ => rfl

theorem origins_act : (m.act a).config.origin = m.config.origin ∧
    (m.act a).assembler.origin = m.assembler.origin := by
  have hprogram {m' : Machine} (h : m'.program = m.program) :
      m'.config.origin = m.config.origin ∧ m'.assembler.origin = m.assembler.origin :=
    ⟨congrArg (·.1.origin) h, congrArg (·.2.1.origin) h⟩
  cases a with
  | assemble source =>
    rw [act, assemble_eq]
    exact ⟨rfl, Assembler.origin_assemble _ _ _⟩
  | start => exact hprogram m.program_start
  | tick => exact hprogram m.program_tick
  | step => exact hprogram m.program_step
  | run maxTicks => exact hprogram (m.program_run maxTicks)
  | reset full => cases full <;> exact ⟨rfl, rfl⟩
  | hookReads range reader? => cases reader? <;> exact ⟨rfl, rfl⟩
  | hookWrites range watcher? => cases watcher? <;> exact ⟨rfl, rfl⟩
  | _ => exact ⟨rfl, rfl⟩

theorem running_act_of_stopped (h : m.running = false) (hs : a.starts = false) :
    (m.act a).running = false := by
  cases a with
  | assemble source =>
    rw [act, assemble_eq]
    rfl
  | start | run maxTicks => cases hs
  | tick => rw [act, running_tick, h, Bool.false_and]
  | step => rw [act, running_step, h, Bool.false_and]
  | reset full => cases full <;> rfl
  | stop => rfl
  | hookReads range reader? => cases reader? <;> exact h
  | hookWrites range watcher? => cases watcher? <;> exact h
  | _ => exact h

theorem running_act_of_haltsIn (h : m.haltsIn a = true) : (m.act a).running = false := by
  cases a with
  | tick => rw [act, running_tick, Option.isNone_eq_false_iff.2 h, Bool.and_false]
  | step => rw [act, running_step, Option.isNone_eq_false_iff.2 h, Bool.and_false]
  | run maxTicks => rw [act, running_run, Option.isNone_eq_false_iff.2 h, Bool.and_false]
  | _ => cases h

end Machine

end Micro6502
