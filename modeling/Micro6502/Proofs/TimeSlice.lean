import Micro6502.Proofs.History
import Micro6502.Proofs.Slice

namespace Micro6502

-- What an instruction does is of no account here, and too much to unfold.
attribute [local irreducible] Processor.step

namespace Scheduler

variable {t : Scheduler} {s : Processor} {m : Memory}

theorem tick_of_running (h : t.running = true) (s : Processor) (m : Memory) :
    t.tick s m =
      (if (s.run m t.quantum).halt.isSome then t.stop else t, s.run m t.quantum) := by
  rw [tick, if_pos h]

theorem quantum_setQuantum {n : Nat} (h : 0 < n) : (t.setQuantum n).quantum = n :=
  Nat.max_eq_left h

def tickTwice (t : Scheduler) (s : Processor) (m : Memory) (n k : Nat) : Scheduler × Slice :=
  let (t', r) := (t.setQuantum n).tick s m
  let (t'', r') := (t'.setQuantum k).tick r.processor r.memory
  (t'', r.join r')

theorem tickTwice_eq (h : t.running = true) {n k : Nat} (hn : 0 < n) (hk : 0 < k) :
    (t.tickTwice s m n k).2 = s.run m (n + k) ∧
      (t.tickTwice s m n k).1.running = (s.run m (n + k)).halt.isNone := by
  have hfirst : (t.setQuantum n).tick s m = (if (s.run m n).halt.isSome
      then (t.setQuantum n).stop else t.setQuantum n, s.run m n) := by
    rw [tick_of_running (t := t.setQuantum n) h, quantum_setQuantum hn]
  rw [Processor.run_add]
  unfold tickTwice
  rw [hfirst]
  generalize s.run m n = r
  cases hr : r.halt with
  | some reason =>
    have hjoin : r.join ⟨0, none, r.processor, r.memory⟩ = r := by
      simp only [Slice.join, Nat.add_zero, Option.or_none]
    have hsecond := tick_of_stopped (t := ((t.setQuantum n).stop.setQuantum k)) rfl
      r.processor r.memory
    simp only [Option.isSome_some, if_true, hsecond, hjoin, Slice.extend_of_some hr, hr]
    exact ⟨trivial, rfl⟩
  | none =>
    have hsecond := tick_of_running (t := (t.setQuantum n).setQuantum k) h r.processor r.memory
    rw [quantum_setQuantum hk] at hsecond
    simp only [Option.isSome_none, Bool.false_eq_true, if_false, hsecond,
      Slice.extend_of_none hr, true_and, Slice.join, hr, Option.none_or]
    cases (r.processor.run r.memory k).halt with
    | none => exact h
    | some reason => rfl

variable (t s m) in
/-- Where a tick ends and what comes of it, and what comes of a tick that is cut in two. -/
structure Sliced : Prop where
  runsTo : s.RunsTo m t.quantum (t.tick s m).2
  stops : (t.tick s m).1 = if (t.tick s m).2.halt.isSome then t.stop else t
  splits : ∀ n k, 0 < n → 0 < k →
    (t.tickTwice s m n k).2 = ((t.setQuantum (n + k)).tick s m).2 ∧
      (t.tickTwice s m n k).1.running = ((t.setQuantum (n + k)).tick s m).1.running

theorem sliced (h : t.running = true) (s : Processor) (m : Memory) : t.Sliced s m := by
  constructor
  case runsTo =>
    rw [tick_of_running h]
    exact Processor.runsTo_run s m t.quantum
  case stops => rw [tick_of_running h]
  case splits =>
    intro n k hn hk
    obtain ⟨hslice, hrunning⟩ := tickTwice_eq (s := s) (m := m) h hn hk
    have honce : ((t.setQuantum (n + k)).tick s m).2 = s.run m (n + k) := by
      rw [tick_of_running (t := t.setQuantum (n + k)) h, quantum_setQuantum (Nat.add_pos_left hn k)]
    have hset : (t.setQuantum (n + k)).running = true := h
    rw [hslice, hrunning, running_tick, honce, hset, Bool.true_and]
    exact ⟨rfl, rfl⟩

end Scheduler

namespace Machine

def steps : Nat → Machine → Option HaltReason × Machine
  | 0, m => (none, m)
  | n + 1, m =>
    match m.step with
    | (some (.halted reason), m) => (some reason, m)
    | (_, m) => steps n m

/-- The machine behind a slice, of which it reports the halt if there was one. -/
def settle (m : Machine) (r : Slice) : Machine :=
  let m := { m with processor := r.processor, memory := r.memory }
  match r.halt with
  | some reason => m.stop.reportHalt reason
  | none => m

def execute (m : Machine) (n : Nat) : Option HaltReason × Machine :=
  let r := m.processor.run m.memory n
  (r.halt, m.settle r)

variable {m : Machine}

theorem settle_of_none {r : Slice} (h : r.halt = none) :
    m.settle r = { m with processor := r.processor, memory := r.memory } := by
  simp only [settle, h]

theorem settle_join {r : Slice} (h : r.halt = none) (r' : Slice) :
    (m.settle r).settle r' = m.settle (r.join r') := by
  simp only [settle, h, Slice.join, Option.none_or]

theorem execute_add (m : Machine) (n k : Nat) : m.execute (n + k) =
    match (m.execute n).1 with
    | some reason => (some reason, (m.execute n).2)
    | none => (m.execute n).2.execute k := by
  simp only [execute, Processor.run_add]
  generalize m.processor.run m.memory n = r
  cases hr : r.halt with
  | some reason => rw [Slice.extend_of_some hr, hr]
  | none =>
    rw [Slice.extend_of_none hr, ← settle_join hr, settle_of_none hr]
    simp only [Slice.join, hr, Option.none_or]

theorem step_eq_execute (h : m.compiled = true) :
    m.step = (some (m.processor.step m.memory).1, (m.execute 1).2) ∧
      (m.execute 1).1 = (m.processor.step m.memory).1.reason? := by
  obtain ⟨config, processor, memory, assembler, scheduler, log, compiled⟩ := m
  obtain rfl : compiled = true := h
  rw [step, if_pos rfl, execute, Processor.run_one]
  generalize processor.step memory = r
  obtain ⟨outcome, processor', memory'⟩ := r
  cases outcome with
  | running => exact ⟨rfl, rfl⟩
  | halted reason => exact ⟨rfl, rfl⟩

theorem execute_of_none {n : Nat} (h : (m.execute n).1 = none) :
    (m.execute n).2.compiled = m.compiled ∧ (m.execute n).2.scheduler = m.scheduler := by
  have hsettle : (m.execute n).2 = _ := settle_of_none h
  rw [hsettle]
  exact ⟨rfl, rfl⟩

theorem steps_eq_execute (h : m.compiled = true) (n : Nat) : steps n m = m.execute n := by
  induction n generalizing m with
  | zero => rfl
  | succ n ih =>
    obtain ⟨hstep, hhalt⟩ := step_eq_execute h
    rw [steps, hstep, Nat.add_comm n 1, execute_add, hhalt]
    cases houtcome : (m.processor.step m.memory).1 with
    | halted reason => rfl
    | running =>
      rw [houtcome] at hhalt
      exact ih ((execute_of_none hhalt).1.trans h)

theorem tick_eq_execute (h : m.running = true) :
    m.tick.1.2 = (m.execute m.scheduler.quantum).1 ∧
      m.tick.2 = (m.execute m.scheduler.quantum).2 := by
  have hslice : m.scheduler.tick m.processor m.memory = _ := Scheduler.tick_of_running h _ _
  rw [tick_eq_match, ticked, slice, hslice, execute]
  generalize m.processor.run m.memory m.scheduler.quantum = r
  cases hr : r.halt with
  | none =>
    rw [settle_of_none hr]
    exact ⟨rfl, rfl⟩
  | some reason =>
    simp only [settle, hr]
    exact ⟨trivial, rfl⟩

theorem ticks_eq_execute (h : m.running = true) (k : Nat) :
    ticks k m = m.execute (k * m.scheduler.quantum) := by
  induction k generalizing m with
  | zero =>
    rw [Nat.zero_mul]
    rfl
  | succ k ih =>
    obtain ⟨hhalt, htick⟩ := tick_eq_execute h
    rw [ticks_succ, hhalt, htick, Nat.succ_mul, Nat.add_comm, execute_add]
    cases hr : (m.execute m.scheduler.quantum).1 with
    | some reason => rfl
    | none =>
      have hscheduler := (execute_of_none hr).2
      have hrunning : (m.execute m.scheduler.quantum).2.running = true := by
        rw [running, hscheduler]
        exact h
      have hrest := ih hrunning
      rw [hscheduler] at hrest
      exact hrest

theorem start_of_compiled (h : m.compiled = true) :
    m.start = { m with scheduler := m.scheduler.start } := by
  rw [start, if_pos h]

theorem execute_start (h : m.compiled = true) (n : Nat) : ∃ scheduler, m.start.execute n =
    ((m.execute n).1, { (m.execute n).2 with scheduler := scheduler }) := by
  rw [start_of_compiled h]
  simp only [execute]
  generalize m.processor.run m.memory n = r
  unfold settle
  cases r.halt with
  | none => exact ⟨_, rfl⟩
  | some reason =>
    simp only [reportHalt]
    split
    · exact ⟨_, rfl⟩
    · exact ⟨_, rfl⟩

theorem run_eq_execute (h : m.compiled = true) (k : Nat) :
    m.run k = m.start.execute (k * m.scheduler.quantum) := by
  have hstart := start_of_compiled h
  have hrunning : m.start.running = true := by
    rw [hstart]
    rfl
  rw [run, if_pos hrunning, ticks_eq_execute hrunning, hstart]
  rfl

variable (m) in
/-- A run of so many ticks does what the steps of so many quanta do. -/
structure RunsInSteps (k : Nat) : Prop where
  halt : (m.run k).1 = (steps (k * m.scheduler.quantum) m).1
  processor : (m.run k).2.processor = (steps (k * m.scheduler.quantum) m).2.processor
  memory : (m.run k).2.memory = (steps (k * m.scheduler.quantum) m).2.memory
  log : (m.run k).2.log = (steps (k * m.scheduler.quantum) m).2.log

theorem runsInSteps (h : m.compiled = true) (k : Nat) : m.RunsInSteps k := by
  obtain ⟨scheduler, hstart⟩ := execute_start h (k * m.scheduler.quantum)
  have hrun : m.run k = ((steps (k * m.scheduler.quantum) m).1,
      { (steps (k * m.scheduler.quantum) m).2 with scheduler := scheduler }) := by
    rw [run_eq_execute h, steps_eq_execute h, hstart]
  constructor
  case halt => rw [hrun]
  case processor => rw [hrun]
  case memory => rw [hrun]
  case log => rw [hrun]

/-- How a run is cut into ticks is not to be seen in what it does. -/
theorem time_slicing {t : Scheduler} {m : Machine} (ht : t.running = true)
    (hm : m.compiled = true) :
    (∀ s memory, t.Sliced s memory) ∧ ∀ k, m.RunsInSteps k :=
  ⟨Scheduler.sliced ht, runsInSteps hm⟩

theorem time_slicing_noOperation :
    let t := Scheduler.standard.start
    let m := (fresh {} none).after [.assemble "NOP".toList, .hookReads ⟨0, 0xFFFF⟩
      (some (.host fun asked ↦ if asked.size < 2 then 0xEA else 0))]
    let r := (t.tickTwice m.processor m.memory 1 1).2
    t.running = true ∧ m.compiled = true ∧ t.Sliced m.processor m.memory ∧ m.RunsInSteps 1 ∧
      r.executed = 2 ∧ r.halt = some (.brk 0x0601) := by
  intro t m r
  have ht : t.running = true := rfl
  have hm : m.compiled = true := by decide +kernel
  have hhalt : r.executed = 2 ∧ r.halt = some (.brk 0x0601) := by decide +kernel
  obtain ⟨hsliced, hruns⟩ := time_slicing ht hm
  exact ⟨ht, hm, hsliced m.processor m.memory, hruns 1, hhalt⟩

end Machine

end Micro6502
