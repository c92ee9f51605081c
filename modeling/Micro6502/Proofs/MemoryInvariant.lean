import Micro6502.Proofs.History
import Micro6502.Proofs.Slice

namespace Micro6502

-- What an instruction does is of no account here, and too much to unfold.
attribute [local irreducible] Processor.step

structure Memory.Stable (P : Memory → Prop) : Prop where
  read : ∀ {m} a, P m → P (m.read a).2
  write : ∀ {m} a v, P m → P (m.write a v)

structure Memory.Lasting (P : Memory → Prop) : Prop extends Memory.Stable P where
  resetNotifying : ∀ {m}, P m → P m.resetNotifying
  readHook : ∀ {m} reader?, P m → P { m with readHook := reader? }

/-- A relation between memories that reading and writing bytes leaves true, and in which both give
the same byte. -/
structure Memory.Bisimulation (R : Memory → Memory → Prop) : Prop where
  read : ∀ {m m'} a, R m m' → (m.read a).1 = (m'.read a).1 ∧ R (m.read a).2 (m'.read a).2
  write : ∀ {m m'} a v, R m m' → R (m.write a v) (m'.write a v)

namespace Memory.Bisimulation

variable {R : Memory → Memory → Prop} (hR : Bisimulation R) {m m' : Memory}
include hR

theorem bus {α : Type} (x : Bus α) (h : R m m') :
    (x.run m).1 = (x.run m').1 ∧ R (x.run m).2 (x.run m').2 := by
  induction x generalizing m m' with
  | done r => exact ⟨rfl, h⟩
  | read a next ih =>
    obtain ⟨hbyte, hread⟩ := hR.read a h
    have hnext := ih (m.read a).1 hread
    have hrun : (Bus.read a next).run m' = (next (m.read a).1).run (m'.read a).2 := by
      rw [hbyte]
      rfl
    rw [hrun]
    exact hnext
  | write a v next ih => exact ih (hR.write a v h)

theorem step (s : Processor) (h : R m m') : (s.step m).1 = (s.step m').1 ∧
    (s.step m).2.1 = (s.step m').2.1 ∧ R (s.step m).2.2 (s.step m').2.2 := by
  obtain ⟨hresult, hmemory⟩ := hR.bus s.execute h
  unfold Processor.step
  generalize s.execute.run m = r at hresult hmemory
  generalize s.execute.run m' = r' at hresult hmemory
  obtain ⟨result, memory⟩ := r
  obtain ⟨result', memory'⟩ := r'
  obtain rfl : result = result' := hresult
  exact ⟨rfl, rfl, hmemory⟩

theorem iterate_next (s : Processor) (h : R m m') (n : Nat) :
    (Processor.next^[n] (s, m)).1 = (Processor.next^[n] (s, m')).1 ∧
      R (Processor.next^[n] (s, m)).2 (Processor.next^[n] (s, m')).2 := by
  induction n generalizing s m m' with
  | zero => exact ⟨rfl, h⟩
  | succ n ih =>
    obtain ⟨-, hprocessor, hmemory⟩ := hR.step s h
    have hnext := ih (s.step m).2.1 hmemory
    have hother : Processor.next (s, m') = ((s.step m).2.1, (s.step m').2.2) := by
      rw [hprocessor]
      rfl
    rw [Function.iterate_succ_apply, Function.iterate_succ_apply, hother]
    exact hnext

theorem outcomeAt (s : Processor) (h : R m m') (k : Nat) :
    Processor.outcomeAt (s, m) k = Processor.outcomeAt (s, m') k := by
  obtain ⟨hprocessor, hmemory⟩ := hR.iterate_next s h k
  obtain ⟨houtcome, -, -⟩ := hR.step (Processor.next^[k] (s, m)).1 hmemory
  simp only [Processor.outcomeAt]
  rw [houtcome, hprocessor]

theorem writeAll (ws : List Write) (h : R m m') : R (m.writeAll ws) (m'.writeAll ws) := by
  induction ws generalizing m m' with
  | nil => exact h
  | cons w ws ih => exact ih (hR.write w.1 w.2 h)

end Memory.Bisimulation

structure Slice.Related (R : Memory → Memory → Prop) (r r' : Slice) : Prop where
  executed : r.executed = r'.executed
  halt : r.halt = r'.halt
  processor : r.processor = r'.processor
  memory : R r.memory r'.memory

namespace Memory.Bisimulation

variable {R : Memory → Memory → Prop} (hR : Bisimulation R) {m m' : Memory}
include hR

theorem run (s : Processor) (h : R m m') (n : Nat) : (s.run m n).Related R (s.run m' n) := by
  have hr := s.runsTo_run m n
  have hr' := s.runsTo_run m' n
  have hexecuted : (s.run m n).executed = (s.run m' n).executed := by
    have hleast := hr.least
    simp only [hR.outcomeAt s h] at hleast
    exact Nat.le_antisymm (hleast.2 hr'.least.1) (hr'.least.2 hleast.1)
  have hbehind := hr.behind
  rw [hexecuted] at hbehind
  obtain ⟨hprocessor, hmemory⟩ := hR.iterate_next s h (s.run m' n).executed
  rw [← hbehind, ← hr'.behind] at hprocessor hmemory
  constructor
  case executed => exact hexecuted
  case halt =>
    rw [hr.halt, hr'.halt, hexecuted]
    cases (s.run m' n).executed with
    | zero => rfl
    | succ j => exact congrArg Outcome.reason? (hR.outcomeAt s h j)
  case processor => exact hprocessor
  case memory => exact hmemory

theorem tick (t : Scheduler) (s : Processor) (h : R m m') :
    (t.tick s m).1 = (t.tick s m').1 ∧ (t.tick s m).2.Related R (t.tick s m').2 := by
  unfold Scheduler.tick
  split
  · have hrun := hR.run s h t.quantum
    exact ⟨by simp only [hrun.halt], hrun⟩
  · exact ⟨rfl, rfl, rfl, rfl, h⟩

end Memory.Bisimulation

namespace Memory.Stable

variable {P : Memory → Prop} (hP : Stable P) {m : Memory}
include hP

theorem bus {α : Type} (x : Bus α) (h : P m) : P (x.run m).2 := by
  induction x generalizing m with
  | done r => exact h
  | read a next ih => exact ih _ (hP.read a h)
  | write a v next ih => exact ih (hP.write a v h)

theorem writeAll (ws : List Write) (h : P m) : P (m.writeAll ws) := by
  induction ws generalizing m with
  | nil => exact h
  | cons w ws ih => exact ih (hP.write w.1 w.2 h)

theorem load (a : UInt16) (vs : List UInt8) (h : P m) : P (m.load a vs) := by
  induction vs generalizing a m with
  | nil => exact h
  | cons v vs ih => exact ih (a + 1) (hP.write a v h)

theorem clearDisplay (r : Resolution) (h : P m) : P (m.clearDisplay r) := by
  unfold Memory.clearDisplay
  induction r.offsets generalizing m with
  | nil => exact h
  | cons i is ih => exact ih (hP.write (r.base + i) 0 h)

theorem step (s : Processor) (h : P m) : P (s.step m).2.2 := by
  rw [Processor.memory_step]
  exact hP.bus s.execute h

theorem run (s : Processor) (h : P m) (n : Nat) : P (s.run m n).memory :=
  Processor.memory_runAfter (fun s _ ↦ hP.step s) h 0 n

end Memory.Stable

namespace Machine

/-- The operations that leave the watcher of the memory, and do not lay the memory open. -/
def Action.keepsWatcher : Action → Bool
  | hookWrites _ _ | attachDisplay | setDisplay _ | access _ _ => false
  | _ => true

theorem memory_start (m : Machine) : m.start.memory = m.memory := by
  unfold start
  split
  · rfl
  · rfl

end Machine

namespace Memory.Stable

variable {P : Memory → Prop} (hP : Stable P) {m : Machine}
include hP

theorem machine_tick (h : P m.memory) : P m.tick.2.memory := by
  obtain ⟨log, htick⟩ := m.tick_eq
  rw [htick]
  change P m.slice.memory
  unfold Machine.slice Scheduler.tick
  split
  · exact hP.run m.processor h m.scheduler.quantum
  · exact h

theorem machine_step (h : P m.memory) : P m.step.2.memory := by
  cases hc : m.compiled with
  | false =>
    rw [m.step_of_uncompiled hc]
    exact h
  | true =>
    obtain ⟨log, hstep⟩ := m.step_eq hc
    rw [hstep]
    exact hP.step m.processor h

theorem machine_ticks (h : P m.memory) (n : Nat) : P (Machine.ticks n m).2.memory := by
  induction n generalizing m with
  | zero => exact h
  | succ n ih =>
    have htick := hP.machine_tick h
    rw [Machine.ticks_succ]
    cases m.tick.1.2 with
    | some reason => exact htick
    | none => exact ih htick

theorem machine_run (h : P m.memory) (n : Nat) : P (m.run n).2.memory := by
  rw [← m.memory_start] at h
  rw [Machine.run]
  split
  · exact hP.machine_ticks h n
  · exact h

end Memory.Stable

namespace Memory.Lasting

variable {P : Memory → Prop} (hP : Lasting P) {m : Machine} {a : Machine.Action}
include hP

theorem machine_assemble (h : P m.memory) (source : Text) :
    P (m.assemble source).2.memory := by
  have hassembly : P (m.assembly source).memory := by
    rw [Machine.assembly, Assembler.memory_assemble]
    split
    · exact hP.resetNotifying h
    · exact hP.writeAll _ (hP.resetNotifying h)
  rw [Machine.assemble_eq]
  simp only
  split
  · exact hP.write _ 0 hassembly
  · exact hassembly

theorem hookReads {m : Memory} (range : AddressRange) (reader : Reader) (h : P m) :
    P (m.hookReads range reader) := by
  unfold Memory.hookReads
  split
  · exact hP.readHook none h
  · exact hP.readHook (some ⟨range, reader, #[]⟩) h

theorem act (ha : a.keepsWatcher = true) (h : P m.memory) : P (m.act a).memory := by
  cases a with
  | assemble source => exact hP.machine_assemble h source
  | start =>
    rw [← m.memory_start] at h
    exact h
  | tick => exact hP.machine_tick h
  | step => exact hP.machine_step h
  | run maxTicks => exact hP.machine_run h maxTicks
  | reset full =>
    cases full with
    | false => exact h
    | true => exact hP.resetNotifying h
  | keyPress code => exact hP.write _ code h
  | hookReads range reader? =>
    cases reader? with
    | none => exact hP.readHook none h
    | some reader => exact hP.hookReads range reader h
  | read a => exact hP.read a h
  | stop | listen log => exact h
  | hookWrites _ _ | attachDisplay | setDisplay _ | access _ _ => cases ha

end Memory.Lasting

end Micro6502
