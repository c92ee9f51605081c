import Micro6502.Proofs.RegisterFile

namespace Micro6502

open Processor (InStackPage slot emptyStack)

namespace Processor

variable {n : Nat}

theorem ofNat_lt_emptyStack (h : n < 0x100) : UInt16.ofNat n < emptyStack := by
  rw [UInt16.lt_iff_toNat_lt, toNat_offset (Nat.le_of_lt h)]
  exact h

theorem slot_ne {k : Nat} (hn : n < 0x100) (hk : k < 0x100) (h : n ≠ k) :
    slot (UInt16.ofNat n) ≠ slot (UInt16.ofNat k) := by
  intro he
  have htoNat := congrArg UInt16.toNat he
  rw [toNat_slot (ofNat_lt_emptyStack hn), toNat_slot (ofNat_lt_emptyStack hk),
    toNat_offset (Nat.le_of_lt hn), toNat_offset (Nat.le_of_lt hk)] at htoNat
  exact h (Nat.add_left_cancel htoNat)

end Processor

namespace Memory

def SparesStack (m : Memory) : Prop := ∀ a, InStackPage a → m.Unhooked a

def stackFrom (m : Memory) (n : Nat) : List UInt8 :=
  (List.range' n (0x100 - n)).map fun k ↦ m.peek (slot (UInt16.ofNat k))

variable {m m' : Memory} {a : UInt16} {n : Nat} {v : UInt8}

theorem SparesStack.write (hm : m.SparesStack) (a : UInt16) (v : UInt8) :
    (m.write a v).SparesStack := by
  intro b hb
  rw [Unhooked, readHook_write]
  exact hm b hb

theorem length_stackFrom : (m.stackFrom n).length = 0x100 - n := by
  rw [stackFrom, List.length_map, List.length_range']

theorem stackFrom_of_lt (h : n < 0x100) :
    m.stackFrom n = m.peek (slot (UInt16.ofNat n)) :: m.stackFrom (n + 1) := by
  have hlen : 0x100 - n = 0x100 - (n + 1) + 1 := by omega
  rw [stackFrom, hlen, List.range'_succ, List.map_cons]
  rfl

theorem stackFrom_eq_cons_cons_iff {w : UInt8} {vs : List UInt8} (h : n + 2 ≤ 0x100) :
    m.stackFrom n = v :: w :: vs ↔ m.peek (slot (UInt16.ofNat n)) = v ∧
      m.peek (slot (UInt16.ofNat (n + 1))) = w ∧ m.stackFrom (n + 2) = vs := by
  rw [stackFrom_of_lt (by omega), stackFrom_of_lt (by omega), List.cons_eq_cons, List.cons_eq_cons]

theorem stackFrom_of_le (h : 0x100 ≤ n) : m.stackFrom n = [] := by
  rw [stackFrom, Nat.sub_eq_zero_of_le h]
  rfl

theorem stackFrom_congr
    (h : ∀ k, n ≤ k → k < 0x100 →
      m'.peek (slot (UInt16.ofNat k)) = m.peek (slot (UInt16.ofNat k))) :
    m'.stackFrom n = m.stackFrom n := by
  apply List.map_congr_left
  intro k hk
  obtain ⟨hle, hlt⟩ := List.mem_range'_1.1 hk
  exact h k hle (by omega)

@[simp] theorem stackFrom_read (m : Memory) (a : UInt16) (n : Nat) :
    (m.read a).2.stackFrom n = m.stackFrom n := by
  simp only [stackFrom, peek_read]

theorem stackFrom_pushAt (h : n < 0x100) :
    (m.pushAt (n + 1) v).stackFrom n = v :: m.stackFrom (n + 1) := by
  have hrest : (m.pushAt (n + 1) v).stackFrom (n + 1) = m.stackFrom (n + 1) := by
    apply stackFrom_congr
    intro k hk hlt
    rw [pushAt, peek_write, if_neg (Processor.slot_ne h hlt (by omega))]
  rw [stackFrom_of_lt h, hrest, pushAt, peek_write, if_pos rfl]

theorem pullAt_of_unhooked (h : n < 0x100) (hm : m.Unhooked (slot (UInt16.ofNat n))) :
    m.pullAt n = (m.peek (slot (UInt16.ofNat n)), m) := by
  rw [pullAt, if_pos h, read_of_unhooked hm]

end Memory

/-- What is done to a stack. Between pushes and pulls the rest of memory may be written. -/
inductive StackAction where
  | push (v : UInt8)
  | pull
  | write (a : UInt16) (v : UInt8)
  deriving DecidableEq, Repr

namespace StackAction

def WritesElsewhere : StackAction → Prop
  | write a _ => ¬ InStackPage a
  | _ => True

def growth : List StackAction → Nat
  | [] => 0
  | push _ :: as => growth as + 1
  | pull :: as => growth as - 1
  | write _ _ :: as => growth as

/-- Actions in which each byte that is pushed is pulled again behind all that is pushed after it,
with the bytes in the order in which they come back. -/
inductive Balanced : List StackAction → List UInt8 → Prop
  | nil : Balanced [] []
  | write {as : List StackAction} {vs : List UInt8} (a : UInt16) (v : UInt8) :
      Balanced as vs → Balanced (write a v :: as) vs
  | enclose {as bs : List StackAction} {vs ws : List UInt8} (v : UInt8) :
      Balanced as vs → Balanced bs ws → Balanced (push v :: (as ++ pull :: bs)) (vs ++ v :: ws)

variable {as : List StackAction} {vs : List UInt8}

theorem Balanced.growth_append (h : Balanced as vs) (bs : List StackAction) :
    growth (as ++ bs) = max (growth as) (growth bs) := by
  induction h generalizing bs with
  | nil => exact (Nat.zero_max _).symm
  | write a v h ih => exact ih bs
  | @enclose as cs vs ws v h h' ih ih' =>
    rw [List.cons_append, List.append_assoc, List.cons_append, growth, growth, ih, ih, growth,
      growth, ih']
    omega

end StackAction

/-- A stack of bytes, the newest first, that has room for 256 of them. -/
structure BoundedStack where
  bytes : List UInt8
  length_le : bytes.length ≤ 0x100
  fault : Option StackFault

namespace BoundedStack

def blame (t : BoundedStack) (f : StackFault) : BoundedStack :=
  { t with fault := t.fault.or (some f) }

def push (t : BoundedStack) (v : UInt8) : BoundedStack :=
  if h : t.bytes.length < 0x100 then ⟨v :: t.bytes, h, t.fault⟩ else t.blame .overflow

def pull (t : BoundedStack) : UInt8 × BoundedStack :=
  match t with
  | ⟨[], _, _⟩ => (0, t.blame .underflow)
  | ⟨v :: vs, h, f⟩ => (v, ⟨vs, Nat.le_of_succ_le h, f⟩)

def run (t : BoundedStack) : List StackAction → List UInt8 × BoundedStack
  | [] => ([], t)
  | .push v :: as => (t.push v).run as
  | .pull :: as =>
    let (v, t) := t.pull
    let (vs, t) := t.run as
    (v :: vs, t)
  | .write _ _ :: as => t.run as

variable {t t' : BoundedStack} {as bs : List StackAction} {vs : List UInt8}

theorem ext_bytes (hb : t.bytes = t'.bytes) (hf : t.fault = t'.fault) : t = t' := by
  cases t
  cases t'
  cases hb
  cases hf
  rfl

theorem pull_of_nil (h : t.bytes = []) : t.pull = (0, t.blame .underflow) := by
  obtain ⟨bytes, hle, f⟩ := t
  cases h
  rfl

theorem pull_of_cons {v : UInt8} (h : t.bytes = v :: vs) (hb : t'.bytes = vs)
    (hf : t'.fault = t.fault) : t.pull = (v, t') := by
  obtain ⟨bytes, hle, f⟩ := t
  cases h
  exact congrArg (Prod.mk v) (ext_bytes hb.symm hf.symm)

theorem run_pull_cons (t : BoundedStack) (as : List StackAction) :
    t.run (.pull :: as) = (t.pull.1 :: (t.pull.2.run as).1, (t.pull.2.run as).2) := rfl

theorem run_append (t : BoundedStack) (as bs : List StackAction) : t.run (as ++ bs) =
    ((t.run as).1 ++ ((t.run as).2.run bs).1, ((t.run as).2.run bs).2) := by
  induction as generalizing t with
  | nil => rfl
  | cons a as ih =>
    cases a with
    | push v => exact ih (t.push v)
    | pull => rw [List.cons_append, run_pull_cons, run_pull_cons, ih, List.cons_append]
    | write a v => exact ih t

theorem fault_push {f : StackFault} (h : t.fault = some f) (v : UInt8) :
    (t.push v).fault = some f := by
  unfold push
  split
  · exact h
  · rw [blame, h, Option.some_or]

theorem fault_pull {f : StackFault} (h : t.fault = some f) : t.pull.2.fault = some f := by
  obtain ⟨_ | ⟨v, vs⟩, hle, g⟩ := t
  · cases h
    rfl
  · exact h

theorem fault_run {f : StackFault} (h : t.fault = some f) (as : List StackAction) :
    (t.run as).2.fault = some f := by
  induction as generalizing t with
  | nil => exact h
  | cons a as ih =>
    cases a with
    | push v => exact ih (fault_push h v)
    | pull => exact ih (fault_pull h)
    | write a v => exact ih h

/-- Bytes for which there is room come back in reverse order and leave the stack as it was. -/
theorem run_balanced (h : StackAction.Balanced as vs)
    (hroom : t.bytes.length + StackAction.growth as ≤ 0x100) : t.run as = (vs, t) := by
  induction h generalizing t with
  | nil => rfl
  | write a v h ih => exact ih hroom
  | @enclose as bs vs ws v h h' ih ih' =>
    rw [StackAction.growth, h.growth_append, StackAction.growth] at hroom
    have hlt : t.bytes.length < 0x100 := by omega
    have hpush : t.push v = ⟨v :: t.bytes, hlt, t.fault⟩ := dif_pos hlt
    have has : (t.push v).run as = (vs, t.push v) := by
      apply ih
      rw [hpush, List.length_cons]
      omega
    have hpull : (t.push v).pull = (v, t) := by
      rw [hpush]
      rfl
    have hbs : t.run bs = (ws, t) := ih' (by omega)
    rw [run, run_append, has, run_pull_cons, hpull, hbs]

end BoundedStack

namespace Processor

variable {s : Processor} {m : Memory} {v : UInt8} {n : Nat}

def stack (s : Processor) (m : Memory) : BoundedStack where
  bytes := m.stackFrom s.sp.toNat
  length_le := by
    rw [Memory.length_stackFrom]
    exact Nat.sub_le _ _
  fault := s.fault

def runStack (s : Processor) (m : Memory) : List StackAction → List UInt8 × Processor × Memory
  | [] => ([], s, m)
  | .push v :: as =>
    let (s, m) := (s.push v).run m
    runStack s m as
  | .pull :: as =>
    let ((v, s), m) := s.pull.run m
    let (vs, s, m) := runStack s m as
    (v :: vs, s, m)
  | .write a v :: as => runStack s (m.write a v) as

theorem run_push_of_room (h : s.sp.toNat = n + 1) : (s.push v).run m =
    (s.lowered 1, m.write (slot (UInt16.ofNat n)) v) := by
  rw [run_push, StackFault.ofPushes, if_neg (by omega), blame_none, h]
  rfl

theorem run_push_of_full (h : s.sp.toNat = 0) :
    (s.push v).run m = (s.recordFault .overflow, m) := by
  rw [run_push, lowered_eq_self (by omega), h]
  rfl

theorem run_pull_of_held (hm : m.SparesStack) (h : s.sp.toNat < 0x100) :
    s.pull.run m = ((m.peek (slot s.sp), s.raised 1), m) := by
  have hsp : s.sp < emptyStack := UInt16.lt_iff_toNat_lt.2 h
  have hslot : m.Unhooked (slot (UInt16.ofNat s.sp.toNat)) := by
    rw [UInt16.ofNat_toNat]
    exact hm _ (inStackPage_slot hsp)
  rw [run_pull (UInt16.le_of_lt hsp), StackFault.ofPulls, if_neg (by omega), blame_none,
    Memory.pullAt_of_unhooked h hslot, UInt16.ofNat_toNat]

theorem run_pull_of_empty (h : s.sp.toNat = 0x100) :
    s.pull.run m = ((0, s.recordFault .underflow), m) := by
  have hsp : s.sp ≤ emptyStack := UInt16.le_iff_toNat_le.2 (Nat.le_of_eq h)
  rw [run_pull hsp, raised_eq_self (by omega), h]
  rfl

theorem length_bytes_stack : (s.stack m).bytes.length = 0x100 - s.sp.toNat :=
  Memory.length_stackFrom

theorem stack_write {a : UInt16} (h : ∀ k, s.sp.toNat ≤ k → k < 0x100 → a ≠ slot (UInt16.ofNat k)) :
    s.stack (m.write a v) = s.stack m := by
  refine BoundedStack.ext_bytes ?_ rfl
  apply Memory.stackFrom_congr
  intro k hle hlt
  rw [Memory.peek_write, if_neg (h k hle hlt)]

theorem stack_push (hs : s.sp ≤ emptyStack) (v : UInt8) :
    ((s.push v).run m).1.stack ((s.push v).run m).2 = (s.stack m).push v := by
  have hle := toNat_sp_le hs
  cases hsp : s.sp.toNat with
  | zero =>
    have hfull : ¬ (s.stack m).bytes.length < 0x100 := by
      rw [length_bytes_stack]
      omega
    rw [run_push_of_full hsp, BoundedStack.push, dif_neg hfull]
    rfl
  | succ n =>
    have hroom : (s.stack m).bytes.length < 0x100 := by
      rw [length_bytes_stack]
      omega
    have hn : (s.lowered 1).sp.toNat = n := by
      rw [toNat_sp_lowered]
      omega
    rw [run_push_of_room hsp, BoundedStack.push, dif_pos hroom]
    refine BoundedStack.ext_bytes ?_ rfl
    change (m.pushAt (n + 1) v).stackFrom (s.lowered 1).sp.toNat = v :: m.stackFrom s.sp.toNat
    rw [hn, Memory.stackFrom_pushAt (by omega), hsp]

theorem bytes_stack_of_lt (h : s.sp.toNat < 0x100) :
    (s.stack m).bytes = m.peek (slot s.sp) :: ((s.raised 1).stack m).bytes := by
  have hraised : (s.raised 1).sp.toNat = s.sp.toNat + 1 := by
    rw [toNat_sp_raised]
    omega
  change m.stackFrom s.sp.toNat = _ :: m.stackFrom (s.raised 1).sp.toNat
  rw [hraised, Memory.stackFrom_of_lt h, UInt16.ofNat_toNat]

theorem stack_pull (hs : s.sp ≤ emptyStack) (hm : m.SparesStack) :
    (s.stack m).pull = ((s.pull.run m).1.1, (s.pull.run m).1.2.stack (s.pull.run m).2) := by
  rcases Nat.lt_or_eq_of_le (toNat_sp_le hs) with hlt | hempty
  · rw [run_pull_of_held hm hlt]
    exact BoundedStack.pull_of_cons (bytes_stack_of_lt hlt) rfl rfl
  · rw [run_pull_of_empty hempty]
    exact BoundedStack.pull_of_nil (Memory.stackFrom_of_le (Nat.le_of_eq hempty.symm))

theorem memory_pull (hs : s.sp ≤ emptyStack) (hm : m.SparesStack) : (s.pull.run m).2 = m := by
  rcases Nat.lt_or_eq_of_le (toNat_sp_le hs) with hlt | hempty
  · rw [run_pull_of_held hm hlt]
  · rw [run_pull_of_empty hempty]

theorem sparesStack_push (hm : m.SparesStack) (v : UInt8) : ((s.push v).run m).2.SparesStack := by
  rw [run_push]
  cases s.sp.toNat with
  | zero => exact hm
  | succ n => exact hm.write _ v

variable {as : List StackAction}

theorem runStack_pull_cons (s : Processor) (m : Memory) (as : List StackAction) :
    s.runStack m (.pull :: as) =
      ((s.pull.run m).1.1 :: ((s.pull.run m).1.2.runStack (s.pull.run m).2 as).1,
        ((s.pull.run m).1.2.runStack (s.pull.run m).2 as).2) := rfl

theorem runStack_kept (hs : s.sp ≤ emptyStack) (hm : m.SparesStack) (as : List StackAction) :
    (s.runStack m as).2.1.sp ≤ emptyStack ∧ (s.runStack m as).2.2.SparesStack := by
  induction as generalizing s m with
  | nil => exact ⟨hs, hm⟩
  | cons a as ih =>
    cases a with
    | push v => exact ih (sp_push_le hs v) (sparesStack_push hm v)
    | pull =>
      have hm' : (s.pull.run m).2.SparesStack := by
        rw [memory_pull hs hm]
        exact hm
      exact ih (sp_pull_le hs) hm'
    | write a v => exact ih hs (hm.write a v)

/-- Pushes and pulls do to the stack page what they do to a stack of bytes. -/
theorem run_stack (hs : s.sp ≤ emptyStack) (hm : m.SparesStack)
    (ha : ∀ a ∈ as, a.WritesElsewhere) : (s.stack m).run as =
      ((s.runStack m as).1, (s.runStack m as).2.1.stack (s.runStack m as).2.2) := by
  induction as generalizing s m with
  | nil => rfl
  | cons a as ih =>
    obtain ⟨ha, has⟩ := List.forall_mem_cons.1 ha
    cases a with
    | push v =>
      rw [BoundedStack.run, ← stack_push hs]
      exact ih (sp_push_le hs v) (sparesStack_push hm v) has
    | pull =>
      have hrest := ih (sp_pull_le (m := m) hs) hm has
      rw [BoundedStack.run_pull_cons, stack_pull hs hm, runStack_pull_cons, memory_pull hs hm,
        hrest]
    | write a v =>
      have hne (k : Nat) (hk : k < 0x100) : a ≠ slot (UInt16.ofNat k) := by
        rintro rfl
        exact ha (inStackPage_slot (ofNat_lt_emptyStack hk))
      rw [BoundedStack.run, ← stack_write (v := v) fun k _ hk ↦ hne k hk]
      exact ih hs (hm.write a v) has

variable (s m) in
/-- How pushes and pulls change what is on the stack, and that they change nothing else. -/
structure Lifo : Prop where
  push : ∀ v, (s.stack m).bytes.length < 0x100 → ∃ s' m', (s.push v).run m = (s', m') ∧
    (s'.stack m').bytes = v :: (s.stack m).bytes ∧ s'.fault = s.fault ∧
    ∀ a, a ≠ slot s'.sp → m'.peek a = m.peek a
  push_full : ∀ v, (s.stack m).bytes.length = 0x100 →
    (s.push v).run m = (s.recordFault .overflow, m)
  pull : ∀ v vs, (s.stack m).bytes = v :: vs → ∃ s', s.pull.run m = ((v, s'), m) ∧
    (s'.stack m).bytes = vs ∧ s'.fault = s.fault
  pull_empty : (s.stack m).bytes = [] → s.pull.run m = ((0, s.recordFault .underflow), m)
  first_fault : ∀ f as, s.fault = some f → (∀ a ∈ as, a.WritesElsewhere) →
    (s.runStack m as).2.1.fault = some f
  reversed : ∀ as vs, StackAction.Balanced as vs → (∀ a ∈ as, a.WritesElsewhere) →
    StackAction.growth as ≤ s.sp.toNat → (s.runStack m as).1 = vs ∧
      (s.runStack m as).2.1.sp = s.sp ∧
      (s.runStack m as).2.1.stack (s.runStack m as).2.2 = s.stack m

theorem lifo (hs : s.sp ≤ emptyStack) (hm : m.SparesStack) : s.Lifo m := by
  have hle := toNat_sp_le hs
  constructor
  case push =>
    intro v hlen
    rw [length_bytes_stack] at hlen
    obtain ⟨n, hn⟩ : ∃ n, s.sp.toNat = n + 1 := Nat.exists_eq_succ_of_ne_zero (by omega)
    have hstack := stack_push (m := m) hs v
    have hpush : (s.stack m).push v = ⟨v :: (s.stack m).bytes, _, s.fault⟩ := dif_pos (by
      rw [length_bytes_stack]
      exact hlen)
    rw [run_push_of_room hn, hpush] at hstack
    refine ⟨_, _, run_push_of_room hn, congrArg BoundedStack.bytes hstack, rfl, ?_⟩
    intro a ha
    have hslot : slot (s.lowered 1).sp = slot (UInt16.ofNat n) := by
      rw [lowered, hn]
      rfl
    rw [Memory.peek_write, if_neg (hslot ▸ ha.symm)]
  case push_full =>
    intro v hlen
    rw [length_bytes_stack] at hlen
    exact run_push_of_full (by omega)
  case pull =>
    intro v vs hbytes
    have hlen := congrArg List.length hbytes
    rw [length_bytes_stack, List.length_cons] at hlen
    have hlt : s.sp.toNat < 0x100 := by omega
    obtain ⟨hv, hvs⟩ := List.cons.inj ((bytes_stack_of_lt hlt).symm.trans hbytes)
    refine ⟨s.raised 1, ?_, hvs, rfl⟩
    rw [run_pull_of_held hm hlt, hv]
  case pull_empty =>
    intro hbytes
    have hlen := congrArg List.length hbytes
    rw [length_bytes_stack, List.length_nil] at hlen
    exact run_pull_of_empty (by omega)
  case first_fault =>
    intro f as hf ha
    have hrun := congrArg (fun r ↦ r.2.fault) (run_stack hs hm ha)
    exact hrun.symm.trans (BoundedStack.fault_run hf as)
  case reversed =>
    intro as vs hbal ha hroom
    have hfits : (s.stack m).bytes.length + StackAction.growth as ≤ 0x100 := by
      rw [length_bytes_stack]
      omega
    have hrun := (run_stack hs hm ha).symm.trans (BoundedStack.run_balanced hbal hfits)
    obtain ⟨hvs, hstack⟩ := Prod.mk.inj hrun
    refine ⟨hvs, ?_, hstack⟩
    -- The stack pointer is read off the number of bytes.
    have hsp := congrArg (·.bytes.length) hstack
    have hle' := toNat_sp_le (runStack_kept hs hm as).1
    simp only [length_bytes_stack] at hsp
    exact UInt16.toNat_inj.1 (by omega)

/-- Whatever has been pushed and pulled so far, the stack page has done what a stack of at most 256
bytes does, and it goes on to do so. -/
theorem stack_lifo_after (hs : s.sp ≤ emptyStack) (hm : m.SparesStack) (as : List StackAction)
    (ha : ∀ a ∈ as, a.WritesElsewhere) :
    let (pulled, s', m') := s.runStack m as
    (pulled, s'.stack m') = (s.stack m).run as ∧ s'.Lifo m' := by
  obtain ⟨hs', hm'⟩ := runStack_kept hs hm as
  exact ⟨(run_stack hs hm ha).symm, lifo hs' hm'⟩

theorem stack_lifo_after_overflow :
    let s := { initial 0x0600 with sp := 1 }
    let m := Memory.blank.hookReads ⟨0x00FE, 0x00FE⟩ (.random fun _ ↦ 7)
    let as : List StackAction := [.push 1, .push 2, .write 0x00FE 3, .pull]
    s.sp ≤ emptyStack ∧ m.SparesStack ∧ (∀ a ∈ as, a.WritesElsewhere) ∧
      let (pulled, s', m') := s.runStack m as
      (pulled, s'.stack m') = (s.stack m).run as ∧ s'.Lifo m' := by
  intro s m as
  have hs : s.sp ≤ emptyStack := by decide
  have hm : m.SparesStack := by
    intro a ha
    have hlo : 0x0100 ≤ a.toNat := UInt16.le_iff_toNat_le.1 ha.1
    refine Memory.unhooked_hookReads (Bool.eq_false_iff.2 fun hcontains ↦ ?_)
    have hhi : a.toNat ≤ 0x00FE := (AddressRange.contains_iff _).1 hcontains |>.2
    omega
  have ha : ∀ a ∈ as, a.WritesElsewhere := by
    simp [as, StackAction.WritesElsewhere, InStackPage]
  exact ⟨hs, hm, ha, stack_lifo_after hs hm as ha⟩

end Processor

end Micro6502
