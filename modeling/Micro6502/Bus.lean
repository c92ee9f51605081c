import Micro6502.Memory

namespace Micro6502

/-- A computation that reaches memory only by reading and writing bytes. What follows a read depends
on the byte that is read. -/
inductive Bus (α : Type) where
  | done (result : α)
  | read (address : UInt16) (next : UInt8 → Bus α)
  | write (address : UInt16) (value : UInt8) (next : Bus α)

namespace Bus

variable {α β : Type}

def bind : Bus α → (α → Bus β) → Bus β
  | done r, f => f r
  | read a next, f => read a fun v ↦ (next v).bind f
  | write a v next, f => write a v (next.bind f)

instance : Monad Bus where
  pure := done
  bind := bind

def get (a : UInt16) : Bus UInt8 := read a done

def put (a : UInt16) (v : UInt8) : Bus Unit := write a v (done ())

def run : Bus α → Memory → α × Memory
  | done r, m => (r, m)
  | read a next, m =>
    let (v, m) := m.read a
    (next v).run m
  | write a v next, m => next.run (m.write a v)

@[simp] theorem run_pure (r : α) (m : Memory) : (pure r : Bus α).run m = (r, m) := rfl

@[simp] theorem run_get (a : UInt16) (m : Memory) : (get a).run m = m.read a := rfl

@[simp] theorem run_put (a : UInt16) (v : UInt8) (m : Memory) :
    (put a v).run m = ((), m.write a v) := rfl

@[simp] theorem run_bind (x : Bus α) (f : α → Bus β) (m : Memory) :
    (x >>= f).run m = (f (x.run m).1).run (x.run m).2 := by
  change (x.bind f).run m = _
  induction x generalizing m with
  | done r => rfl
  | read a next ih => exact ih _ _
  | write a v next ih => exact ih _

end Bus

end Micro6502
