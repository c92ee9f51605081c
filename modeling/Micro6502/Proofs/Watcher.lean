import Micro6502.Proofs.Access
import Micro6502.Proofs.Overlay

namespace Micro6502

def Access.write? : Access → Option Write
  | read _ => none
  | write a v => some (a, v)

def Call.tells : Call → Bool
  | read _ _ => false
  | write _ _ | pixel _ _ => true

def ReadHook.callsOf (h : ReadHook) (a : UInt16) : Array Call :=
  match h.reader with
  | .host answer => #[.read a (answer (h.asked.push a))]
  | .random _ => #[]

/-- What is told of a write: a host the address and the byte, a display the place in its range and
the low four bits of the byte. -/
def WriteHook.report (h : WriteHook) (w : Write) : Call :=
  match h.watcher with
  | .host => .write w.1 w.2
  | .display => .pixel (w.1 - h.range.lo) (w.2 &&& 0x0F)

theorem WriteHook.call_eq_report (h : WriteHook) (a : UInt16) (v : UInt8) :
    h.call a v = h.report (a, v) := rfl

namespace Memory

def callOf (m : Memory) (w : Write) : Option Call :=
  m.writeHook.bind fun h ↦ if h.range.contains w.1 then some (h.report w) else none

def told (m : Memory) : List Call := m.calls.toList.filter Call.tells

variable {m m' : Memory} {a : UInt16} {v : UInt8}

theorem callOf_congr (h : m'.writeHook = m.writeHook) : m'.callOf = m.callOf := by
  funext w
  rw [callOf, callOf, h]

theorem notify_eq (m : Memory) (a : UInt16) (v : UInt8) :
    m.notify a v = { m with calls := m.calls ++ (m.callOf (a, v)).toArray } := by
  obtain ⟨cells, readHook, writeHook, calls⟩ := m
  cases writeHook with
  | none => simp [notify, callOf]
  | some h =>
    by_cases ha : h.range.contains a = true <;>
      simp [notify, callOf, ha, WriteHook.call_eq_report]

theorem foldl_notify (m : Memory) (as : List UInt16) (v : UInt8) :
    as.foldl (fun m a ↦ m.notify a v) m =
      { m with calls := m.calls ++ (as.filterMap fun a ↦ m.callOf (a, v)).toArray } := by
  induction as generalizing m with
  | nil =>
    rw [List.filterMap_nil, Array.append_empty]
    rfl
  | cons a as ih =>
    have hlater : (m.notify a v).callOf = m.callOf := by
      rw [notify_eq]
      exact callOf_congr rfl
    rw [List.foldl_cons, ih, hlater, notify_eq]
    cases hc : m.callOf (a, v) with
    | none => simp only [List.filterMap_cons, hc, Option.toArray_none, Array.append_empty]
    | some c =>
      have hcons (cs : List Call) : (some c).toArray ++ cs.toArray = (c :: cs).toArray :=
        (List.toArray_cons c cs).symm
      simp only [List.filterMap_cons, hc, Array.append_assoc, hcons]

theorem resetNotifying_eq {h : WriteHook} (m : Memory) (hk : m.writeHook = some h) :
    m.resetNotifying = { m.reset with
      calls := m.calls ++ (h.range.addresses.filterMap fun a ↦ m.callOf (a, 0)).toArray } := by
  rw [resetNotifying, hk]
  exact foldl_notify m.reset h.range.addresses 0

theorem writeHook_write (m : Memory) (a : UInt16) (v : UInt8) :
    (m.write a v).writeHook = m.writeHook := by
  rw [write_eq, notify_eq]
  rfl

theorem tells_of_callOf {w : Write} {c : Call} (h : m.callOf w = some c) : c.tells = true := by
  obtain ⟨⟨range, watcher⟩, -, hc⟩ := Option.bind_eq_some_iff.1 h
  obtain ⟨-, hc⟩ := Option.ite_none_right_eq_some.1 hc
  rw [← Option.some.inj hc]
  cases watcher <;> rfl

theorem calls_write (m : Memory) (a : UInt16) (v : UInt8) :
    (m.write a v).calls = m.calls ++ (m.callOf (a, v)).toArray := by
  rw [write_eq, notify_eq]
  rfl

theorem told_write (m : Memory) (a : UInt16) (v : UInt8) :
    (m.write a v).told = m.told ++ (m.callOf (a, v)).toList := by
  rw [told, told, calls_write, Array.toList_append, List.filter_append]
  congr 1
  cases hc : m.callOf (a, v) with
  | none => rfl
  | some c => exact List.filter_cons_of_pos (tells_of_callOf hc)

theorem consult_eq (m : Memory) (h : ReadHook) (a : UInt16) : m.consult h a =
    (h.reader.answer (h.asked.push a),
      { m with
        readHook := some { h with asked := h.asked.push a }
        calls := m.calls ++ h.callsOf a }) := by
  obtain ⟨range, reader, asked⟩ := h
  cases reader with
  | host answer => rfl
  | random draw => rw [ReadHook.callsOf, Array.append_empty, consult]

theorem told_read (m : Memory) (a : UInt16) : (m.read a).2.told = m.told := by
  have hsilent (h : ReadHook) : (h.callsOf a).toList.filter Call.tells = [] := by
    obtain ⟨range, reader, asked⟩ := h
    cases reader <;> rfl
  have hconsult (h : ReadHook) : (m.consult h a).2.told = m.told := by
    rw [consult_eq, told, told, Array.toList_append, List.filter_append, hsilent, List.append_nil]
  rw [read_eq]
  cases m.readHook with
  | none => rfl
  | some h =>
    simp only
    split
    · exact hconsult h
    · rfl

/-- Carries out what is left of a write. Of each call that is made on the way the memory is kept on
which it is made. -/
def observe (m : Memory) (a : UInt16) (v : UInt8) : List WriteStep → Memory × List (Memory × Write)
  | [] => (m, [])
  | step :: steps =>
    let m' := m.carryOut a v step
    let (last, later) := m'.observe a v steps
    (last, if m'.calls = m.calls then later else (m, a, v) :: later)

theorem observe_fst (m : Memory) (a : UInt16) (v : UInt8) (steps : List WriteStep) :
    (m.observe a v steps).1 = steps.foldl (fun m step ↦ m.carryOut a v step) m := by
  induction steps generalizing m with
  | nil => rfl
  | cons step steps ih => exact ih (m.carryOut a v step)

theorem calls_notify_eq_iff (m : Memory) (a : UInt16) (v : UInt8) :
    (m.notify a v).calls = m.calls ↔ m.callOf (a, v) = none := by
  rw [notify_eq]
  cases m.callOf (a, v) with
  | none => simp
  | some c => simp

theorem observe_writeSteps (m : Memory) (a : UInt16) (v : UInt8) :
    m.observe a v writeSteps =
      (m.write a v, if (m.callOf (a, v)).isSome then [(m.store a v, a, v)] else []) := by
  have hcall : (m.store a v).callOf = m.callOf := callOf_congr rfl
  have hcalls : ((m.store a v).notify a v).calls = m.calls ↔ m.callOf (a, v) = none := by
    rw [← hcall]
    exact (m.store a v).calls_notify_eq_iff a v
  have hstored : (m.store a v).calls = m.calls := rfl
  simp only [writeSteps, observe, carryOut, hstored, if_true, hcalls, write_eq]
  cases m.callOf (a, v) with
  | none => rfl
  | some c => rfl

end Memory

namespace Bus

variable {α β : Type}

def writes (x : Bus α) (m : Memory) : List Write := (x.accesses m).filterMap Access.write?

@[simp] theorem writes_pure (r : α) (m : Memory) : (pure r : Bus α).writes m = [] := rfl

@[simp] theorem writes_get (a : UInt16) (m : Memory) : (get a).writes m = [] := rfl

@[simp] theorem writes_put (a : UInt16) (v : UInt8) (m : Memory) :
    (put a v).writes m = [(a, v)] := rfl

theorem writes_bind (x : Bus α) (f : α → Bus β) (m : Memory) :
    (x >>= f).writes m = x.writes m ++ (f (x.run m).1).writes (x.run m).2 := by
  rw [writes, accesses_bind, List.filterMap_append]
  rfl

/-- Carries a computation out. Of each call that its writes make the memory is kept on which it is
made. -/
def observe : Bus α → Memory → (α × Memory) × List (Memory × Write)
  | done r, m => ((r, m), [])
  | read a next, m =>
    let (v, m) := m.read a
    (next v).observe m
  | write a v next, m =>
    let (m, now) := m.observe a v Memory.writeSteps
    let (last, later) := next.observe m
    (last, now ++ later)

theorem observe_write (a : UInt16) (v : UInt8) (next : Bus α) (m : Memory) :
    (write a v next).observe m = ((next.observe (m.write a v)).1,
      (if (m.callOf (a, v)).isSome then [(m.store a v, a, v)] else []) ++
        (next.observe (m.write a v)).2) := by
  rw [observe, Memory.observe_writeSteps]

theorem observe_fst (x : Bus α) (m : Memory) : (x.observe m).1 = x.run m := by
  induction x generalizing m with
  | done r => rfl
  | read a next ih => exact ih _ _
  | write a v next ih =>
    rw [observe_write]
    exact ih _

theorem peek_run (x : Bus α) (m : Memory) (a : UInt16) :
    (x.run m).2.peek a = (latest? (x.writes m) a).getD (m.peek a) := by
  induction x generalizing m with
  | done r => rfl
  | read b next ih =>
    have hrest := ih (m.read b).1 (m.read b).2
    rw [Memory.peek_read] at hrest
    exact hrest
  | write b v next ih =>
    have hwrites : (write b v next).writes m = (b, v) :: next.writes (m.write b v) := rfl
    have hrun : ((write b v next).run m).2 = (next.run (m.write b v)).2 := rfl
    rw [hrun, ih, ← Memory.peek_writeAll, hwrites, ← Memory.peek_writeAll]
    rfl

theorem told_run (x : Bus α) (m : Memory) :
    (x.run m).2.told = m.told ++ (x.writes m).filterMap m.callOf := by
  induction x generalizing m with
  | done r => exact (List.append_nil _).symm
  | read a next ih =>
    have hrest := ih (m.read a).1 (m.read a).2
    rw [Memory.told_read, Memory.callOf_congr Memory.writeHook_read] at hrest
    exact hrest
  | write a v next ih =>
    have hwrites : (write a v next).writes m = [(a, v)] ++ next.writes (m.write a v) := rfl
    have hnow : (m.callOf (a, v)).toList = [(a, v)].filterMap m.callOf := by
      cases hc : m.callOf (a, v) <;> simp [hc]
    have hrest := ih (m.write a v)
    rw [Memory.told_write, Memory.callOf_congr (m.writeHook_write a v), hnow, List.append_assoc,
      ← List.filterMap_append, ← hwrites] at hrest
    exact hrest

theorem observe_writes (x : Bus α) (m : Memory) :
    (x.observe m).2.map Prod.snd = (x.writes m).filter fun w ↦ (m.callOf w).isSome := by
  induction x generalizing m with
  | done r => rfl
  | read a next ih =>
    have hrest := ih (m.read a).1 (m.read a).2
    rw [Memory.callOf_congr Memory.writeHook_read] at hrest
    exact hrest
  | write a v next ih =>
    have hwrites : (write a v next).writes m = (a, v) :: next.writes (m.write a v) := rfl
    have hrest := ih (m.write a v)
    rw [Memory.callOf_congr (m.writeHook_write a v)] at hrest
    rw [observe_write, hwrites, List.filter_cons, List.map_append, hrest]
    split
    · rfl
    · rfl

/-- When the watcher is told of a byte, the byte is stored. -/
theorem stored_of_mem_observe (x : Bus α) (m : Memory) :
    ∀ n ∈ (x.observe m).2, n.1.peek n.2.1 = n.2.2 := by
  induction x generalizing m with
  | done r => exact List.forall_mem_nil _
  | read a next ih => exact ih _ _
  | write a v next ih =>
    rw [observe_write]
    refine List.forall_mem_append.2 ⟨?_, ih _⟩
    split
    · refine List.forall_mem_singleton.2 ?_
      rw [Memory.peek_store, if_pos rfl]
    · exact List.forall_mem_nil _

end Bus

end Micro6502
