import Micro6502.Proofs.History
import Micro6502.Proofs.Overlay

namespace Micro6502

namespace Memory

/-- How a memory goes on while its reader is not asked. The watcher may be told of writes. -/
structure Unasked (m m' : Memory) : Prop where
  readHook : m'.readHook = m.readHook
  writeHook : m'.writeHook = m.writeHook
  calls : ∃ told, m'.calls.toList = m.calls.toList ++ told ∧
    ∀ a v, Call.read a v ∉ told

variable {m m' m'' : Memory}

theorem Unasked.refl (m : Memory) : m.Unasked m :=
  ⟨rfl, rfl, [], (List.append_nil _).symm, fun _ _ ↦ List.not_mem_nil⟩

theorem Unasked.trans (h : m.Unasked m') (h' : m'.Unasked m'') : m.Unasked m'' := by
  obtain ⟨told, hcalls, htold⟩ := h.calls
  obtain ⟨told', hcalls', htold'⟩ := h'.calls
  refine ⟨h'.readHook.trans h.readHook, h'.writeHook.trans h.writeHook, told ++ told', ?_, ?_⟩
  · rw [hcalls', hcalls, List.append_assoc]
  · intro a v hmem
    rcases List.mem_append.1 hmem with hmem | hmem
    · exact htold a v hmem
    · exact htold' a v hmem

theorem unasked_notify (m : Memory) (a : UInt16) (v : UInt8) : m.Unasked (m.notify a v) := by
  unfold notify
  split
  · rename_i h _
    split
    · refine ⟨rfl, rfl, [h.call a v], Array.toList_push, ?_⟩
      intro b w hmem
      obtain ⟨range, watcher⟩ := h
      cases watcher <;> cases List.mem_singleton.1 hmem
    · exact .refl m
  · exact .refl m

theorem unasked_write (m : Memory) (a : UInt16) (v : UInt8) : m.Unasked (m.write a v) := by
  have hstore : m.Unasked (m.store a v) := ⟨rfl, rfl, (Unasked.refl m).calls⟩
  exact hstore.trans (unasked_notify (m.store a v) a v)

theorem unasked_foldl {α : Type} {f : Memory → α → Memory}
    (h : ∀ (m : Memory) (x : α), m.Unasked (f m x))
    (m : Memory) (l : List α) : m.Unasked (l.foldl f m) := by
  induction l generalizing m with
  | nil => exact .refl m
  | cons x l ih => exact (h m x).trans (ih (f m x))

theorem unasked_writeAll (m : Memory) (ws : List Write) : m.Unasked (m.writeAll ws) :=
  unasked_foldl (fun m (w : Write) ↦ unasked_write m w.1 w.2) m ws

theorem unasked_resetNotifying (m : Memory) : m.Unasked m.resetNotifying := by
  have hreset : m.Unasked m.reset := ⟨rfl, rfl, (Unasked.refl m).calls⟩
  unfold resetNotifying
  split
  · exact hreset.trans (unasked_foldl (fun m a ↦ unasked_notify m a 0) _ _)
  · exact hreset

end Memory

namespace Assembler

variable {a b : Assembler} {source : Text} {m m' : Memory}

theorem walks_eq (h : a.origin = b.origin) (source : Text) :
    a.indexWalk source = b.indexWalk source ∧ a.commitWalk source = b.commitWalk source := by
  unfold commitWalk indexWalk
  rw [h]
  exact ⟨rfl, rfl⟩

theorem result_eq (h : a.origin = b.origin) :
    (a.assemble source m).result = (b.assemble source m').result := by
  obtain ⟨hi, hc⟩ := walks_eq h source
  rw [result_assemble, result_assemble, hi, hc]

theorem symbols_assemble :
    (a.assemble source m).assembler.symbols = (a.indexWalk source).symbols := by
  rw [assembler_assemble]
  split
  · rfl
  · rfl
  · rfl

theorem symbols_eq (h : a.origin = b.origin) :
    (a.assemble source m).assembler.symbols = (b.assemble source m').assembler.symbols := by
  rw [symbols_assemble, symbols_assemble, (walks_eq h source).1]

theorem assembler_eq {n : Nat} (h : a.origin = b.origin)
    (hn : (a.assemble source m).result = .ok n) :
    (a.assemble source m).assembler = (b.assemble source m').assembler := by
  obtain ⟨hi, hc⟩ := walks_eq h source
  obtain ⟨pc, pc', hpc, hpc', -⟩ := assemble_ok_iff.1 hn
  rw [assembler_assemble, assembler_assemble, ← hi, ← hc, hpc, hpc', h]

theorem peek_eq (h : a.origin = b.origin) (hm : ∀ x, m.peek x = m'.peek x) (x : UInt16) :
    (a.assemble source m).memory.peek x = (b.assemble source m').memory.peek x := by
  obtain ⟨hi, hc⟩ := walks_eq h source
  rw [memory_assemble, memory_assemble, hi, hc]
  split
  · exact hm x
  · rw [Memory.peek_writeAll, Memory.peek_writeAll, hm x]

theorem unasked_assemble : m.Unasked (a.assemble source m).memory := by
  rw [memory_assemble]
  split
  · exact .refl m
  · exact Memory.unasked_writeAll m _

end Assembler

/-- What shows of a machine that has been told to assemble a source. -/
structure Loading where
  result : Except AssemblyError Nat
  processor : Processor
  running : Bool
  compiled : Bool
  symbols : SymbolTable
  stored : UInt16 → UInt8
  extent : Option (Nat × UInt16)

/-- What a new assembler makes of a source over empty memory, with a zero behind the program. -/
def Loading.afresh (origin : UInt16) (source : Text) : Loading :=
  let r := (Assembler.ofOrigin origin).assemble source .blank
  { result := r.result
    processor := .initial origin
    running := false
    compiled := r.result.isOk
    symbols := r.assembler.symbols
    stored := fun a ↦ if r.result.isOk ∧ r.assembler.endAddress = a then 0 else r.memory.peek a
    extent :=
      if r.result.isOk then some (r.assembler.codeLength, r.assembler.endAddress) else none }

namespace Machine

def loading (m : Machine) (source : Text) : Loading :=
  let (result, m) := m.assemble source
  { result := result
    processor := m.processor
    running := m.running
    compiled := m.compiled
    symbols := m.assembler.symbols
    stored := m.memory.peek
    extent := if result.isOk then some (m.assembler.codeLength, m.assembler.endAddress) else none }

variable {m : Machine}

theorem loading_eq (h : m.assembler.origin = m.config.origin) (source : Text) :
    m.loading source = .afresh m.config.origin source := by
  have horigin : m.assembler.origin = (Assembler.ofOrigin m.config.origin).origin := h
  -- The past of a machine could show in the stored bytes only, and the reset clears them.
  have hzero : ∀ x, m.memory.resetNotifying.peek x = Memory.blank.peek x := by
    intro x
    rw [Memory.peek_resetNotifying, Memory.peek_blank]
  have hresult : (m.assembly source).result =
      ((Assembler.ofOrigin m.config.origin).assemble source .blank).result :=
    Assembler.result_eq horigin
  have hsymbols : (m.assembly source).assembler.symbols =
      ((Assembler.ofOrigin m.config.origin).assemble source .blank).assembler.symbols :=
    Assembler.symbols_eq horigin
  have hpeek : (m.assembly source).memory.peek =
      ((Assembler.ofOrigin m.config.origin).assemble source .blank).memory.peek :=
    funext (Assembler.peek_eq horigin hzero)
  rw [loading, assemble_eq, Loading.afresh]
  simp only [hresult, hsymbols]
  cases hn : ((Assembler.ofOrigin m.config.origin).assemble source .blank).result with
  | error e =>
    simp only [Except.isOk, Except.toBool, Bool.false_eq_true, false_and, if_false, hpeek]
    rfl
  | ok n =>
    have hassembler : (m.assembly source).assembler =
        ((Assembler.ofOrigin m.config.origin).assemble source .blank).assembler :=
      Assembler.assembler_eq horigin (hresult.trans hn)
    simp only [Except.isOk, Except.toBool, true_and, if_true, hassembler]
    congr 1
    funext a
    rw [Memory.peek_write, hpeek]

theorem unasked_assemble (m : Machine) (source : Text) :
    m.memory.Unasked (m.assemble source).2.memory := by
  have hassembly : m.memory.Unasked (m.assembly source).memory :=
    (Memory.unasked_resetNotifying m.memory).trans Assembler.unasked_assemble
  rw [assemble_eq]
  simp only
  split
  · exact hassembly.trans (Memory.unasked_write _ _ _)
  · exact hassembly

theorem origins_after (m : Machine) (as : List Action) :
    (m.after as).config.origin = m.config.origin ∧
      (m.after as).assembler.origin = m.assembler.origin := by
  induction as generalizing m with
  | nil => exact ⟨rfl, rfl⟩
  | cons a as ih =>
    obtain ⟨hconfig, hassembler⟩ := ih (m.act a)
    exact ⟨hconfig.trans origins_act.1, hassembler.trans origins_act.2⟩

theorem origins_fresh (c : Config) (draw? : Option (Nat → UInt32)) :
    (fresh c draw?).config.origin = c.origin ∧ (fresh c draw?).assembler.origin = c.origin := by
  cases draw? with
  | none => exact ⟨rfl, rfl⟩
  | some draw => exact ⟨rfl, rfl⟩

theorem loading_after_fresh (c : Config) (draw? : Option (Nat → UInt32)) (as : List Action)
    (source : Text) : ((fresh c draw?).after as).loading source = .afresh c.origin source := by
  obtain ⟨hconfig, hassembler⟩ := origins_after (fresh c draw?) as
  obtain ⟨hconfig₀, hassembler₀⟩ := origins_fresh c draw?
  rw [loading_eq, hconfig, hconfig₀]
  rw [hconfig, hassembler, hconfig₀, hassembler₀]

/-- Two machines of one origin cannot be told apart by what they make of a source, nor from one that
has no past. -/
theorem loading_independent (c₁ c₂ : Config) (draw₁? draw₂? : Option (Nat → UInt32))
    (as₁ as₂ : List Action) (source : Text) (h : c₁.origin = c₂.origin) :
    let m₁ := (fresh c₁ draw₁?).after as₁
    let m₂ := (fresh c₂ draw₂?).after as₂
    m₁.loading source = m₂.loading source ∧
      m₁.loading source = .afresh c₁.origin source ∧
      m₁.memory.Unasked (m₁.assemble source).2.memory ∧
      m₂.memory.Unasked (m₂.assemble source).2.memory := by
  intro m₁ m₂
  have h₁ : m₁.loading source = .afresh c₁.origin source := loading_after_fresh c₁ draw₁? as₁ source
  have h₂ : m₂.loading source = .afresh c₁.origin source := by
    rw [h]
    exact loading_after_fresh c₂ draw₂? as₂ source
  exact ⟨h₁.trans h₂.symm, h₁, unasked_assemble m₁ source, unasked_assemble m₂ source⟩

theorem loading_independent_running :
    let c : Config := { quantum := 1, display := .r64 }
    let m₁ := (fresh {} none).after [.assemble "NOP\nFOO".toList, .keyPress 1]
    let m₂ := (fresh c (some fun _ ↦ 7)).after
      [.assemble "loop: JSR loop".toList, .attachDisplay, .start, .tick]
    ({} : Config).origin = c.origin ∧
      m₁.loading "INX".toList = m₂.loading "INX".toList ∧
      m₁.loading "INX".toList = .afresh 0x0600 "INX".toList ∧
      m₁.memory.Unasked (m₁.assemble "INX".toList).2.memory ∧
      m₂.memory.Unasked (m₂.assemble "INX".toList).2.memory :=
  ⟨rfl, loading_independent {} _ none _ _ _ _ rfl⟩

end Machine

end Micro6502
