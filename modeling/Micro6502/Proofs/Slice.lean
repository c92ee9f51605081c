import Mathlib.Logic.Function.Iterate
import Mathlib.Order.Bounds.Defs
import Micro6502.Proofs.InstructionStep
import Micro6502.Scheduler

namespace Micro6502

namespace Slice

def join (r r' : Slice) : Slice :=
  ⟨r.executed + r'.executed, r.halt.or r'.halt, r'.processor, r'.memory⟩

/-- A slice that goes on for so many instructions, unless it has halted. -/
def extend (r : Slice) (n : Nat) : Slice :=
  if r.halt.isSome then r else r.join (r.processor.run r.memory n)

theorem join_assoc (r r' r'' : Slice) : (r.join r').join r'' = r.join (r'.join r'') := by
  simp only [join, Nat.add_assoc, Option.or_assoc]

theorem extend_of_none {r : Slice} (h : r.halt = none) (n : Nat) :
    r.extend n = r.join (r.processor.run r.memory n) := by
  rw [extend, h]
  rfl

theorem extend_of_some {r : Slice} {reason : HaltReason} (h : r.halt = some reason) (n : Nat) :
    r.extend n = r := by
  rw [extend, h]
  rfl

theorem join_extend {r : Slice} (h : r.halt = none) (r' : Slice) (n : Nat) :
    (r.join r').extend n = r.join (r'.extend n) := by
  have hhalt : (r.join r').halt = r'.halt := by
    rw [join, h, Option.none_or]
  cases hr' : r'.halt with
  | none =>
    rw [extend_of_none (hhalt.trans hr'), extend_of_none hr', join_assoc]
    rfl
  | some reason => rw [extend_of_some (hhalt.trans hr'), extend_of_some hr']

end Slice

namespace Processor

def next (p : Processor × Memory) : Processor × Memory := (p.1.step p.2).2

/-- What comes of the instruction that is executed behind so many others. -/
def outcomeAt (p : Processor × Memory) (k : Nat) : Outcome :=
  let q := next^[k] p
  (q.1.step q.2).1

variable {s : Processor} {m : Memory}

-- What an instruction does is of no account here, and too much to unfold.
attribute [local irreducible] step

theorem runAfter_succ (done : Nat) (s : Processor) (m : Memory) (n : Nat) :
    runAfter done s m (n + 1) = match s.step m with
      | (.halted reason, s, m) => ⟨done + 1, some reason, s, m⟩
      | (.running, s, m) => runAfter (done + 1) s m n := rfl

theorem memory_runAfter {P : Memory → Prop}
    (hstep : ∀ (s : Processor) (m : Memory), P m → P (s.step m).2.2) (h : P m) (done n : Nat) :
    P (runAfter done s m n).memory := by
  induction n generalizing done s m with
  | zero => exact h
  | succ n ih =>
    have hnext := hstep s m h
    rw [runAfter_succ]
    generalize s.step m = r at hnext ⊢
    obtain ⟨outcome, s', m'⟩ := r
    cases outcome with
    | running => exact ih hnext _
    | halted reason => exact hnext

theorem runAfter_eq (done : Nat) (s : Processor) (m : Memory) (n : Nat) :
    runAfter done s m n = { s.run m n with executed := done + (s.run m n).executed } := by
  induction n generalizing done s m with
  | zero => rfl
  | succ n ih =>
    rw [run, runAfter_succ, runAfter_succ]
    generalize s.step m = r
    obtain ⟨outcome, s', m'⟩ := r
    cases outcome with
    | running => simp only [ih, Nat.add_assoc, Nat.zero_add]
    | halted reason => rfl

theorem run_zero (s : Processor) (m : Memory) : s.run m 0 = ⟨0, none, s, m⟩ := rfl

theorem run_one (s : Processor) (m : Memory) :
    s.run m 1 = ⟨1, (s.step m).1.reason?, (s.step m).2.1, (s.step m).2.2⟩ := by
  rw [run, runAfter_succ]
  generalize s.step m = r
  obtain ⟨outcome, s', m'⟩ := r
  cases outcome <;> rfl

theorem run_succ (s : Processor) (m : Memory) (n : Nat) :
    s.run m (n + 1) = (s.run m 1).extend n := by
  rw [run_one, run, runAfter_succ]
  generalize s.step m = r
  obtain ⟨outcome, s', m'⟩ := r
  cases outcome with
  | running => exact runAfter_eq 1 s' m' n
  | halted reason => rfl

theorem run_add (s : Processor) (m : Memory) (n k : Nat) :
    s.run m (n + k) = (s.run m n).extend k := by
  induction n generalizing s m with
  | zero =>
    have hjoin : (⟨0, none, s, m⟩ : Slice).join (s.run m k) = s.run m k := by
      simp only [Slice.join, Nat.zero_add, Option.none_or]
    rw [Nat.zero_add, run_zero, Slice.extend_of_none rfl]
    exact hjoin.symm
  | succ n ih =>
    rw [Nat.succ_add, run_succ s m (n + k), run_succ s m n]
    cases h : (s.run m 1).halt with
    | none =>
      rw [Slice.extend_of_none h, Slice.extend_of_none h, ih, Slice.join_extend h]
    | some reason =>
      rw [Slice.extend_of_some h, Slice.extend_of_some h, Slice.extend_of_some h]

/-- A run executes as many instructions as there are up to the first one that halts, but no more
than it may, and leaves what these leave. -/
structure RunsTo (s : Processor) (m : Memory) (n : Nat) (r : Slice) : Prop where
  least : IsLeast {k | k = n ∨ ∃ j, k = j + 1 ∧ outcomeAt (s, m) j ≠ .running} r.executed
  halt : r.halt = match r.executed with
    | 0 => none
    | j + 1 => (outcomeAt (s, m) j).reason?
  behind : (r.processor, r.memory) = next^[r.executed] (s, m)

theorem runsTo_one_of_halted {reason : HaltReason} (h : (s.step m).1 = .halted reason) (n : Nat) :
    s.RunsTo m (n + 1) (s.run m 1) := by
  have hfirst : outcomeAt (s, m) 0 ≠ .running := by
    intro hrunning
    cases h.symm.trans hrunning
  rw [run_one]
  constructor
  case least =>
    refine ⟨.inr ⟨0, rfl, hfirst⟩, ?_⟩
    intro k hk
    rcases hk with rfl | ⟨j, rfl, -⟩
    · exact Nat.le_add_left 1 n
    · exact Nat.le_add_left 1 j
  case halt => rfl
  case behind => rfl

theorem runsTo_join {n : Nat} {r : Slice} (h : (s.step m).1 = .running)
    (hr : (s.run m 1).processor.RunsTo (s.run m 1).memory n r) :
    s.RunsTo m (n + 1) ((s.run m 1).join r) := by
  rw [run_one] at hr ⊢
  obtain ⟨⟨hmem, hle⟩, hhalt, hbehind⟩ := hr
  rw [h]
  have hexecuted : (Slice.join ⟨1, Outcome.running.reason?, (s.step m).2.1, (s.step m).2.2⟩
      r).executed = r.executed + 1 := Nat.add_comm 1 _
  constructor
  case least =>
    rw [hexecuted]
    constructor
    · rcases hmem with hn | ⟨j, hj, hne⟩
      · exact .inl (congrArg (· + 1) hn)
      · exact .inr ⟨j + 1, congrArg (· + 1) hj, hne⟩
    · intro k hk
      rcases hk with rfl | ⟨j, rfl, hne⟩
      · exact Nat.succ_le_succ (hle (.inl rfl))
      · cases j with
        | zero => exact absurd h hne
        | succ j => exact Nat.succ_le_succ (hle (.inr ⟨j, rfl, hne⟩))
  case halt =>
    rw [hexecuted]
    refine hhalt.trans ?_
    cases r.executed with
    | zero => exact (congrArg Outcome.reason? h).symm
    | succ j => rfl
  case behind =>
    rw [hexecuted]
    exact hbehind

theorem runsTo_run (s : Processor) (m : Memory) (n : Nat) : s.RunsTo m n (s.run m n) := by
  induction n generalizing s m with
  | zero => exact ⟨⟨.inl rfl, fun k _ ↦ Nat.zero_le k⟩, rfl, rfl⟩
  | succ n ih =>
    have hhalt : (s.run m 1).halt = (s.step m).1.reason? := by
      rw [run_one]
    rw [run_succ]
    cases h : (s.step m).1 with
    | halted reason =>
      rw [h] at hhalt
      rw [Slice.extend_of_some hhalt]
      exact runsTo_one_of_halted h n
    | running =>
      rw [h] at hhalt
      rw [Slice.extend_of_none hhalt]
      exact runsTo_join h (ih _ _)

end Processor

end Micro6502
