import Micro6502.Bus

namespace Micro6502

inductive Access where
  | read (address : UInt16)
  | write (address : UInt16) (value : UInt8)
  deriving DecidableEq, Repr

def Access.address : Access → UInt16
  | read a | write a _ => a

def Access.read? : Access → Option UInt16
  | read a => some a
  | write _ _ => none

def Access.fetches (a : UInt16) : Nat → List Access
  | 0 => []
  | n + 1 => .read a :: fetches (a + 1) n

/-- A reader that has been asked for those of the addresses that are in its range. -/
def ReadHook.consulted (h : ReadHook) (as : List UInt16) : ReadHook :=
  { h with asked := h.asked ++ (as.filter h.range.contains).toArray }

theorem ReadHook.consulted_append (h : ReadHook) (as bs : List UInt16) :
    h.consulted (as ++ bs) = (h.consulted as).consulted bs := by
  simp only [consulted, List.filter_append, List.append_toArray, Array.append_assoc]

namespace Memory

def Unhooked (m : Memory) (a : UInt16) : Prop :=
  ∀ h ∈ m.readHook, h.range.contains a = false

theorem read_of_unhooked {m : Memory} {a : UInt16} (h : m.Unhooked a) :
    m.read a = (m.peek a, m) := by
  rw [read_eq]
  cases hk : m.readHook with
  | none => rfl
  | some k => simp only [h k hk, Bool.false_eq_true, if_false]

theorem unhooked_hookReads {m : Memory} {range : AddressRange} {reader : Reader} {a : UInt16}
    (h : range.contains a = false) : (m.hookReads range reader).Unhooked a := by
  intro k hk
  unfold hookReads at hk
  split at hk
  · cases hk
  · cases hk
    exact h

theorem readHook_write (m : Memory) (a : UInt16) (v : UInt8) :
    (m.write a v).readHook = m.readHook := by
  rw [write_eq]
  unfold notify
  split
  · split
    · rfl
    · rfl
  · rfl

theorem readHook_read (m : Memory) (a : UInt16) :
    (m.read a).2.readHook = m.readHook.map (·.consulted [a]) := by
  rw [read_eq]
  cases hk : m.readHook with
  | none => exact hk
  | some h =>
    by_cases ha : h.range.contains a = true
    · have hasked : h.consulted [a] = { h with asked := h.asked.push a } := by
        rw [ReadHook.consulted, List.filter_cons_of_pos ha, List.filter_nil, Array.push_eq_append]
      simp only [if_pos ha, Option.map_some, hasked]
      rfl
    · have hasked : h.consulted [a] = h := by
        rw [ReadHook.consulted, List.filter_cons_of_neg ha, List.filter_nil, Array.append_empty]
      simp only [if_neg ha, Option.map_some, hasked, hk]

end Memory

namespace Bus

variable {α β : Type}

def accesses : Bus α → Memory → List Access
  | done _, _ => []
  | read a next, m => .read a :: (next (m.read a).1).accesses (m.read a).2
  | write a v next, m => .write a v :: next.accesses (m.write a v)

@[simp] theorem accesses_pure (r : α) (m : Memory) : (pure r : Bus α).accesses m = [] := rfl

@[simp] theorem accesses_bind (x : Bus α) (f : α → Bus β) (m : Memory) :
    (x >>= f).accesses m = x.accesses m ++ (f (x.run m).1).accesses (x.run m).2 := by
  change (x.bind f).accesses m = _
  induction x generalizing m with
  | done r => rfl
  | read a next ih => exact congrArg (.read a :: ·) (ih _ _)
  | write a v next ih => exact congrArg (.write a v :: ·) (ih _)

def reads (x : Bus α) (m : Memory) : List UInt16 := (x.accesses m).filterMap Access.read?

@[simp] theorem reads_pure (r : α) (m : Memory) : (pure r : Bus α).reads m = [] := rfl

@[simp] theorem reads_get (a : UInt16) (m : Memory) : (get a).reads m = [a] := rfl

@[simp] theorem reads_put (a : UInt16) (v : UInt8) (m : Memory) : (put a v).reads m = [] := rfl

theorem reads_bind (x : Bus α) (f : α → Bus β) (m : Memory) :
    (x >>= f).reads m = x.reads m ++ (f (x.run m).1).reads (x.run m).2 := by
  rw [reads, accesses_bind, List.filterMap_append]
  rfl

theorem readHook_run (x : Bus α) (m : Memory) :
    (x.run m).2.readHook = m.readHook.map (·.consulted (x.reads m)) := by
  induction x generalizing m with
  | done r =>
    have hnil (h : ReadHook) : h.consulted [] = h := by
      simp only [ReadHook.consulted, List.filter_nil, Array.append_empty]
    exact Option.map_id'.symm.trans (Option.map_congr fun h _ ↦ (hnil h).symm)
  | read a next ih =>
    have hreads : (read a next).reads m = [a] ++ (next (m.read a).1).reads (m.read a).2 := rfl
    have hrun : ((read a next).run m).2 = ((next (m.read a).1).run (m.read a).2).2 := rfl
    rw [hreads, hrun, ih, Memory.readHook_read, Option.map_map]
    simp only [ReadHook.consulted_append]
    rfl
  | write a v next ih =>
    have hrun : ((write a v next).run m).2 = (next.run (m.write a v)).2 := rfl
    rw [hrun, ih, Memory.readHook_write]
    rfl

theorem unhooked_run (x : Bus α) {m : Memory} {a : UInt16} (h : m.Unhooked a) :
    (x.run m).2.Unhooked a := by
  intro k hk
  rw [readHook_run] at hk
  obtain ⟨h', hh', rfl⟩ := Option.map_eq_some_iff.1 hk
  exact h h' hh'

end Bus

theorem Memory.unhooked_read {m : Memory} {a b : UInt16} (h : m.Unhooked a) :
    (m.read b).2.Unhooked a := Bus.unhooked_run (Bus.get b) h

end Micro6502
