import Micro6502.Proofs.MemoryInvariant
import Micro6502.Proofs.Watcher

namespace Micro6502

namespace Memory

variable {seen : UInt16 → Prop} {before before' : Array Call} {m m' : Memory}

/-- Two memories with the same hooks and the same bytes wherever they are seen, which is wherever no
reader stands in front of them. Since some moment they have made the same calls. -/
structure Alike (seen : UInt16 → Prop) (before before' : Array Call) (m m' : Memory) : Prop where
  readHook : m.readHook = m'.readHook
  writeHook : m.writeHook = m'.writeHook
  seen_of_unhooked : ∀ a, m.Unhooked a → seen a
  peek : ∀ a, seen a → m.peek a = m'.peek a
  calls : ∃ later, m.calls = before ++ later ∧ m'.calls = before' ++ later

theorem Alike.write (h : Alike seen before before' m m') (a : UInt16) (v : UInt8) :
    Alike seen before before' (m.write a v) (m'.write a v) := by
  have hcall : m'.callOf = m.callOf := callOf_congr h.writeHook.symm
  constructor
  case readHook => rw [readHook_write, readHook_write, h.readHook]
  case writeHook => rw [writeHook_write, writeHook_write, h.writeHook]
  case seen_of_unhooked =>
    intro b hb
    apply h.seen_of_unhooked b
    rw [Unhooked, readHook_write] at hb
    exact hb
  case peek =>
    intro b hb
    rw [peek_write, peek_write, h.peek b hb]
  case calls =>
    obtain ⟨later, hm, hm'⟩ := h.calls
    refine ⟨later ++ (m.callOf (a, v)).toArray, ?_, ?_⟩
    · rw [calls_write, hm, Array.append_assoc]
    · rw [calls_write, hcall, hm', Array.append_assoc]

theorem Alike.consult {k : ReadHook} (h : Alike seen before before' m m')
    (hk : m.readHook = some k) (a : UInt16) :
    Alike seen before before' (m.consult k a).2 (m'.consult k a).2 := by
  rw [consult_eq, consult_eq]
  constructor
  case readHook => rfl
  case writeHook => exact h.writeHook
  case seen_of_unhooked =>
    intro b hb
    apply h.seen_of_unhooked b
    intro k' hk'
    obtain rfl : k = k' := Option.some.inj (hk.symm.trans hk')
    exact hb { k with asked := k.asked.push a } rfl
  case peek =>
    intro b hb
    exact h.peek b hb
  case calls =>
    obtain ⟨later, hm, hm'⟩ := h.calls
    refine ⟨later ++ k.callsOf a, ?_, ?_⟩
    · rw [hm, Array.append_assoc]
    · rw [hm', Array.append_assoc]

theorem Alike.read (h : Alike seen before before' m m') (a : UInt16) :
    (m.read a).1 = (m'.read a).1 ∧ Alike seen before before' (m.read a).2 (m'.read a).2 := by
  have hpeek (ha : m.Unhooked a) : (m.read a).1 = (m'.read a).1 ∧
      Alike seen before before' (m.read a).2 (m'.read a).2 := by
    have ha' : m'.Unhooked a := by
      rw [Unhooked, ← h.readHook]
      exact ha
    rw [read_of_unhooked ha, read_of_unhooked ha']
    exact ⟨h.peek a (h.seen_of_unhooked a ha), h⟩
  cases hk : m.readHook with
  | none =>
    apply hpeek
    intro k hk'
    cases hk.symm.trans hk'
  | some k =>
    by_cases ha : k.range.contains a = true
    · rw [read_eq, read_eq, ← h.readHook, hk]
      simp only [if_pos ha]
      refine ⟨?_, h.consult hk a⟩
      rw [consult_eq, consult_eq]
    · apply hpeek
      intro k' hk'
      obtain rfl : k = k' := Option.some.inj (hk.symm.trans hk')
      exact Bool.eq_false_iff.2 ha

theorem bisimulation_alike (seen : UInt16 → Prop) (before before' : Array Call) :
    Bisimulation (Alike seen before before') where
  read a h := h.read a
  write a v h := h.write a v

end Memory

namespace Processor

/-- So many instructions on two memories, and the one behind them: all that can be told of the runs
is the same, and so are the bytes that no reader stands in front of. -/
structure RunsAlike (s : Processor) (m m' : Memory) (n : Nat) : Prop where
  outcome : outcomeAt (s, m) n = outcomeAt (s, m') n
  processor : (next^[n] (s, m)).1 = (next^[n] (s, m')).1
  asked : (next^[n] (s, m)).2.readHook = (next^[n] (s, m')).2.readHook
  calls : ∃ later, (next^[n] (s, m)).2.calls = m.calls ++ later ∧
    (next^[n] (s, m')).2.calls = m'.calls ++ later
  peek : ∀ a, m.Unhooked a → (next^[n] (s, m)).2.peek a = (next^[n] (s, m')).2.peek a

variable {m m' : Memory}

theorem storage_hidden (hread : m.readHook = m'.readHook) (hwrite : m.writeHook = m'.writeHook)
    (hpeek : ∀ a, m.Unhooked a → m.peek a = m'.peek a) (s : Processor) (n : Nat) :
    s.RunsAlike m m' n := by
  have hbisimulation := Memory.bisimulation_alike m.Unhooked m.calls m'.calls
  have halike : Memory.Alike m.Unhooked m.calls m'.calls m m' :=
    ⟨hread, hwrite, fun _ ha ↦ ha, hpeek, #[], Array.append_empty.symm, Array.append_empty.symm⟩
  obtain ⟨hprocessor, hmemory⟩ := hbisimulation.iterate_next s halike n
  obtain ⟨houtcome, -, -⟩ := hbisimulation.step (next^[n] (s, m)).1 hmemory
  constructor
  case outcome =>
    simp only [outcomeAt]
    rw [houtcome, hprocessor]
  case processor => exact hprocessor
  case asked => exact hmemory.readHook
  case calls => exact hmemory.calls
  case peek => exact hmemory.peek

theorem storage_hidden_counter :
    let program : List UInt8 := [0xA5, 0x10, 0xE6, 0x10, 0x85, 0x10]
    let m := (Memory.blank.load 0x0600 program).hookReads ⟨0x10, 0x10⟩ (.host fun _ ↦ 7)
    let m' := m.store 0x10 1
    m.readHook = m'.readHook ∧ m.writeHook = m'.writeHook ∧ m.peek 0x10 ≠ m'.peek 0x10 ∧
      (∀ a, m.Unhooked a → m.peek a = m'.peek a) ∧ (Processor.initial 0x0600).RunsAlike m m' 3 := by
  intro program m m'
  have hhooks (m : Memory) : m.readHook = (m.store 0x10 1).readHook ∧
      m.writeHook = (m.store 0x10 1).writeHook := ⟨rfl, rfl⟩
  obtain ⟨hread, hwrite⟩ := hhooks m
  have hne : m.peek 0x10 ≠ m'.peek 0x10 := by
    have hm : m.peek 0x10 = (Memory.blank.load 0x0600 program).peek 0x10 := rfl
    rw [Memory.peek_store, if_pos rfl, hm, Memory.peek_load (by decide), if_neg (by decide),
      Memory.peek_blank]
    decide
  have hpeek : ∀ a, m.Unhooked a → m.peek a = m'.peek a := by
    intro a ha
    have ha' : 0x10 ≠ a := by
      intro h
      have hcontains := ha ⟨⟨0x10, 0x10⟩, .host fun _ ↦ 7, #[]⟩ rfl
      rw [← h] at hcontains
      cases hcontains
    rw [Memory.peek_store, if_neg ha']
  exact ⟨hread, hwrite, hne, hpeek, storage_hidden hread hwrite hpeek _ 3⟩

end Processor

end Micro6502
