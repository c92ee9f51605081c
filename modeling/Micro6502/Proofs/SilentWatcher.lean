import Micro6502.Proofs.MemoryHistory
import Micro6502.Proofs.MemoryInvariant

namespace Micro6502

-- What an instruction does is of no account here, and too much to unfold.
attribute [local irreducible] Processor.step

namespace Memory

/-- What the readers have been asked and have answered so far. -/
def heard (m : Memory) : List Call := m.calls.toList.filter fun c ↦ !c.tells

def answer? (m : Memory) : Action → Option UInt16
  | .read a => some (m.read a).1.toUInt16
  | .readWord a => some (m.readWord a).1
  | .peek a => some (m.peek a).toUInt16
  | _ => none

/-- Two memories that differ in their watchers, and in what these have been told. Since some moment
their readers have answered the same. -/
structure Twins (before before' : List Call) (m m' : Memory) : Prop where
  cells : m.cells = m'.cells
  readHook : m.readHook = m'.readHook
  heard : ∃ later, m.heard = before ++ later ∧ m'.heard = before' ++ later

variable {before before' : List Call} {m m' : Memory}

theorem cells_eq_of_peek (h : ∀ a, m.peek a = m'.peek a) : m.cells = m'.cells := by
  apply Vector.ext
  intro i hi
  have hpeek := h (UInt16.ofNat i)
  simp only [peek, UInt16.toNat_ofNat_of_lt' hi] at hpeek
  exact hpeek

theorem heard_append {cs : List Call} (h : ∀ c ∈ cs, c.tells = true) (m m' : Memory)
    (hm : m'.calls = m.calls ++ cs.toArray) : m'.heard = m.heard := by
  have hnone : cs.filter (fun c ↦ !c.tells) = [] := by
    refine List.filter_eq_nil_iff.2 fun c hc ↦ ?_
    rw [h c hc]
    exact Bool.false_ne_true
  rw [heard, hm, Array.toList_append, List.filter_append, hnone, List.append_nil, heard]

theorem heard_write (m : Memory) (a : UInt16) (v : UInt8) : (m.write a v).heard = m.heard := by
  have htells : ∀ c ∈ (m.callOf (a, v)).toList, c.tells = true := by
    intro c hc
    exact tells_of_callOf (Option.mem_toList.1 hc)
  refine heard_append htells m _ ?_
  rw [calls_write]
  cases m.callOf (a, v) <;> rfl

theorem heard_resetNotifying (m : Memory) : m.resetNotifying.heard = m.heard := by
  cases hk : m.writeHook with
  | none =>
    rw [resetNotifying, hk]
    rfl
  | some k =>
    rw [resetNotifying_eq m hk]
    refine heard_append ?_ m _ rfl
    intro c hc
    obtain ⟨a, -, ha⟩ := List.mem_filterMap.1 hc
    exact tells_of_callOf ha

theorem Twins.write (h : Twins before before' m m') (a : UInt16) (v : UInt8) :
    Twins before before' (m.write a v) (m'.write a v) := by
  constructor
  case cells =>
    rw [Memory.write_eq, Memory.write_eq, cells_notify, cells_notify]
    simp only [store, h.cells]
  case readHook => rw [readHook_write, readHook_write, h.readHook]
  case heard =>
    rw [heard_write, heard_write]
    exact h.heard

theorem Twins.peek (h : Twins before before' m m') (a : UInt16) : m.peek a = m'.peek a := by
  simp only [Memory.peek, h.cells]

theorem Twins.consult (h : Twins before before' m m') (k : ReadHook) (a : UInt16) :
    (m.consult k a).1 = (m'.consult k a).1 ∧
      Twins before before' (m.consult k a).2 (m'.consult k a).2 := by
  rw [consult_eq, consult_eq]
  refine ⟨rfl, h.cells, rfl, ?_⟩
  obtain ⟨later, hm, hm'⟩ := h.heard
  refine ⟨later ++ (k.callsOf a).toList.filter fun c ↦ !c.tells, ?_, ?_⟩
  · rw [Memory.heard, Array.toList_append, List.filter_append, ← List.append_assoc, ← hm]
    rfl
  · rw [Memory.heard, Array.toList_append, List.filter_append, ← List.append_assoc, ← hm']
    rfl

theorem Twins.read (h : Twins before before' m m') (a : UInt16) :
    (m.read a).1 = (m'.read a).1 ∧ Twins before before' (m.read a).2 (m'.read a).2 := by
  rw [read_eq, read_eq, ← h.readHook]
  cases m.readHook with
  | none => exact ⟨h.peek a, h⟩
  | some k =>
    simp only
    split
    · exact h.consult k a
    · exact ⟨h.peek a, h⟩

theorem bisimulation_twins (before before' : List Call) :
    Bisimulation (Twins before before') where
  read a h := h.read a
  write a v h := h.write a v

theorem Twins.act (h : Twins before before' m m') (o : Action) :
    m.answer? o = m'.answer? o ∧ Twins before before' (m.act o) (m'.act o) := by
  cases o with
  | write a v => exact ⟨rfl, h.write a v⟩
  | load a vs =>
    rw [Memory.act, Memory.act, load_eq_stores, load_eq_stores]
    exact ⟨rfl, (bisimulation_twins before before').writeAll _ h⟩
  | reset => exact ⟨rfl, rfl, h.readHook, h.heard⟩
  | resetNotifying =>
    obtain ⟨calls, hm⟩ := m.exists_resetNotifying
    obtain ⟨calls', hm'⟩ := m'.exists_resetNotifying
    refine ⟨rfl, ?_, ?_, ?_⟩
    · rw [Memory.act, Memory.act, hm, hm']
      rfl
    · rw [Memory.act, Memory.act, hm, hm']
      exact h.readHook
    · rw [Memory.act, Memory.act, heard_resetNotifying, heard_resetNotifying]
      exact h.heard
  | hookReads range reader? =>
    rw [act_hookReads, act_hookReads]
    exact ⟨rfl, h.cells, rfl, h.heard⟩
  | hookWrites range watcher? =>
    rw [act_hookWrites, act_hookWrites]
    exact ⟨rfl, h.cells, h.readHook, h.heard⟩
  | clearReadHook => exact ⟨rfl, h.cells, rfl, h.heard⟩
  | clearWriteHook => exact ⟨rfl, h.cells, h.readHook, h.heard⟩
  | read a =>
    obtain ⟨hbyte, hmemory⟩ := h.read a
    exact ⟨congrArg (fun v : UInt8 ↦ some v.toUInt16) hbyte, hmemory⟩
  | readWord a =>
    obtain ⟨hlow, hmemory⟩ := h.read a
    obtain ⟨hhigh, hmemory⟩ := hmemory.read (a + 1)
    refine ⟨?_, hmemory⟩
    simp only [answer?, readWord, hlow, hhigh]
  | peek a => exact ⟨congrArg (fun v : UInt8 ↦ some v.toUInt16) (h.peek a), h⟩

end Memory

theorem Assembler.assemble_eq_of_memory (a : Assembler) (source : Text) (m m' : Memory) :
    (a.assemble source m).result = (a.assemble source m').result ∧
      (a.assemble source m).messages = (a.assemble source m').messages ∧
      (a.assemble source m).assembler = (a.assemble source m').assembler := by
  unfold assemble
  rw [runPass_index]
  cases (a.indexWalk source).counter with
  | error f => exact ⟨rfl, rfl, rfl⟩
  | ok pc =>
    simp only [Except.map, runPass_commit]
    cases (a.commitWalk source).counter with
    | error f => exact ⟨rfl, rfl, rfl⟩
    | ok pc' => cases (a.commitWalk source).writes <;> exact ⟨rfl, rfl, rfl⟩

/-- What works on a memory: a processor, its run control and an assembler. -/
structure Board where
  processor : Processor
  scheduler : Scheduler
  assembler : Assembler

namespace Board

inductive Action where
  | memory (o : Memory.Action)
  | execute
  | tick
  | start
  | stop
  | setQuantum (n : Nat)
  | assemble (source : Text)
  | restart (origin : UInt16)

inductive Response where
  | value (v? : Option UInt16)
  | executed (outcome : Outcome)
  | ticked (executed : Nat) (halt : Option HaltReason)
  | assembled (result : Except AssemblyError Nat) (messages : List String)
  | done

def act (b : Board) (m : Memory) : Action → Response × Board × Memory
  | .memory o => (.value (m.answer? o), b, m.act o)
  | .execute =>
    let (outcome, s, m) := b.processor.step m
    (.executed outcome, { b with processor := s }, m)
  | .tick =>
    let (t, r) := b.scheduler.tick b.processor m
    (.ticked r.executed r.halt, { b with processor := r.processor, scheduler := t }, r.memory)
  | .start => (.done, { b with scheduler := b.scheduler.start }, m)
  | .stop => (.done, { b with scheduler := b.scheduler.stop }, m)
  | .setQuantum n => (.done, { b with scheduler := b.scheduler.setQuantum n }, m)
  | .assemble source =>
    let r := b.assembler.assemble source m
    (.assembled r.result r.messages, { b with assembler := r.assembler }, r.memory)
  | .restart origin => (.done, { b with processor := .initial origin }, m)

def run (b : Board) (m : Memory) : List Action → List Response × Board × Memory
  | [] => ([], b, m)
  | a :: as =>
    let (r, b, m) := b.act m a
    let (rs, b, m) := b.run m as
    (r :: rs, b, m)

/-- The same operations on two memories: all that can be told of them is the same, what the
watchers are told excepted. -/
structure RunsAlike (b : Board) (m m' : Memory) (as : List Action) : Prop where
  responses : (b.run m as).1 = (b.run m' as).1
  board : (b.run m as).2.1 = (b.run m' as).2.1
  peek : ∀ a, (b.run m as).2.2.peek a = (b.run m' as).2.2.peek a
  asked : (b.run m as).2.2.readHook = (b.run m' as).2.2.readHook
  heard : ∃ later, (b.run m as).2.2.heard = m.heard ++ later ∧
    (b.run m' as).2.2.heard = m'.heard ++ later

variable {before before' : List Call} {m m' : Memory}

theorem act_twins (b : Board) (h : Memory.Twins before before' m m') (a : Action) :
    (b.act m a).1 = (b.act m' a).1 ∧ (b.act m a).2.1 = (b.act m' a).2.1 ∧
      Memory.Twins before before' (b.act m a).2.2 (b.act m' a).2.2 := by
  have hbisimulation := Memory.bisimulation_twins before before'
  cases a with
  | memory o =>
    obtain ⟨hanswer, hmemory⟩ := h.act o
    exact ⟨congrArg Response.value hanswer, rfl, hmemory⟩
  | execute =>
    obtain ⟨houtcome, hprocessor, hmemory⟩ := hbisimulation.step b.processor h
    refine ⟨congrArg Response.executed houtcome, ?_, hmemory⟩
    exact congrArg (fun s ↦ { b with processor := s }) hprocessor
  | tick =>
    obtain ⟨hscheduler, hslice⟩ := hbisimulation.tick b.scheduler b.processor h
    refine ⟨?_, ?_, hslice.memory⟩
    · simp only [act, hslice.executed, hslice.halt]
    · simp only [act, hscheduler, hslice.processor]
  | assemble source =>
    obtain ⟨hresult, hmessages, hassembler⟩ := b.assembler.assemble_eq_of_memory source m m'
    refine ⟨?_, ?_, ?_⟩
    · simp only [act, hresult, hmessages]
    · simp only [act, hassembler]
    · simp only [act, Assembler.memory_assemble]
      split
      · exact h
      · exact hbisimulation.writeAll _ h
  | start | stop | setQuantum n | restart origin => exact ⟨rfl, rfl, h⟩

theorem run_twins (b : Board) (h : Memory.Twins before before' m m') (as : List Action) :
    (b.run m as).1 = (b.run m' as).1 ∧ (b.run m as).2.1 = (b.run m' as).2.1 ∧
      Memory.Twins before before' (b.run m as).2.2 (b.run m' as).2.2 := by
  induction as generalizing b m m' with
  | nil => exact ⟨rfl, rfl, h⟩
  | cons a as ih =>
    obtain ⟨hresponse, hboard, hmemory⟩ := b.act_twins h a
    obtain ⟨hresponses, hboards, hmemories⟩ := ih (b.act m a).2.1 hmemory
    simp only [run]
    rw [← hresponse, ← hboard]
    exact ⟨congrArg ((b.act m a).1 :: ·) hresponses, hboards, hmemories⟩

theorem watcher_silent (hread : m.readHook = m'.readHook) (hpeek : ∀ a, m.peek a = m'.peek a)
    (b : Board) (as : List Action) : b.RunsAlike m m' as := by
  have htwins : Memory.Twins m.heard m'.heard m m' :=
    ⟨Memory.cells_eq_of_peek hpeek, hread, [], (List.append_nil _).symm, (List.append_nil _).symm⟩
  obtain ⟨hresponses, hboard, hmemory⟩ := b.run_twins htwins as
  exact ⟨hresponses, hboard, hmemory.peek, hmemory.readHook, hmemory.heard⟩

theorem watcher_silent_display :
    let program : Array UInt16 → UInt8 := fun asked ↦ #[0x8D, 0x10, 0x02].getD (asked.size - 1) 0
    let m := Memory.blank.hookReads ⟨0, 0xFFFF⟩ (.host program)
    let m' := m.hookWrites ⟨0x0200, 0x05FF⟩ .display
    let b : Board := ⟨.initial 0x0600, .ofQuantum 1, .standard⟩
    let as : List Action := [.assemble "* = $0200\nDCB $17".toList, .start, .tick]
    m.readHook = m'.readHook ∧ (∀ a, m.peek a = m'.peek a) ∧ (b.run m as).2.2.told = [] ∧
      (b.run m' as).2.2.told = [.pixel 0 7, .pixel 0x10 0] ∧ b.RunsAlike m m' as := by
  intro program m m' b as
  have hread : m.readHook = m'.readHook := rfl
  have hpeek : ∀ a, m.peek a = m'.peek a := fun a ↦ rfl
  refine ⟨hread, hpeek, ?_, ?_, watcher_silent hread hpeek b as⟩
  · decide +kernel
  · decide +kernel

end Board

end Micro6502
