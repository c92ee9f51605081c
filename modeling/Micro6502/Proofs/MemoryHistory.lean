import Mathlib.Data.List.DropRight
import Micro6502.Proofs.Watcher

namespace Micro6502

theorem latest?_append (ws ws' : List Write) (a : UInt16) :
    latest? (ws ++ ws') a = (latest? ws' a).or (latest? ws a) := by
  rw [latest?, List.reverse_append, List.lookup_append]
  rfl

namespace Memory

/-- What can be done to a memory. A range that is given without a reader or a watcher clears the
hook. -/
inductive Action where
  | write (a : UInt16) (v : UInt8)
  | load (a : UInt16) (vs : List UInt8)
  | reset
  | resetNotifying
  | hookReads (range : AddressRange) (reader? : Option Reader)
  | hookWrites (range : AddressRange) (watcher? : Option Watcher)
  | clearReadHook
  | clearWriteHook
  | read (a : UInt16)
  | readWord (a : UInt16)
  | peek (a : UInt16)

def act (m : Memory) : Action → Memory
  | .write a v => m.write a v
  | .load a vs => m.load a vs
  | .reset => m.reset
  | .resetNotifying => m.resetNotifying
  | .hookReads range (some reader) => m.hookReads range reader
  | .hookReads _ none => m.clearReadHook
  | .hookWrites range (some watcher) => m.hookWrites range watcher
  | .hookWrites _ none => m.clearWriteHook
  | .clearReadHook => m.clearReadHook
  | .clearWriteHook => m.clearWriteHook
  | .read a => (m.read a).2
  | .readWord a => (m.readWord a).2
  | .peek _ => m

def after (m : Memory) (h : List Action) : Memory := h.foldl act m

namespace Action

/-- The bytes that an operation stores. Each byte of a row has an address of its own, which is
counted from the first one on and goes on at 0 behind the top of memory. -/
def stores : Action → List Write
  | write a v => [(a, v)]
  | load a vs => vs.zipIdx.map fun (v, i) ↦ (a + UInt16.ofNat i, v)
  | _ => []

def zeroes : Action → Bool
  | reset | resetNotifying => true
  | _ => false

def reads : Action → List UInt16
  | read a => [a]
  | readWord a => [a, a + 1]
  | _ => []

/-- The read hook that an operation leaves in place of the one before, or nothing if it does not
change the read hook. -/
def readHook? : Action → Option (Option ReadHook)
  | hookReads range (some reader) =>
    some (if range.lo ≤ range.hi then some ⟨range, reader, #[]⟩ else none)
  | hookReads _ none | clearReadHook => some none
  | _ => none

def writeHook? : Action → Option (Option WriteHook)
  | hookWrites range (some watcher) =>
    some (if range.lo ≤ range.hi then some ⟨range, watcher⟩ else none)
  | hookWrites _ none | clearWriteHook => some none
  | _ => none

/-- Of each byte in its range a host is told `.write a v`, and a display is told
`.pixel (a - lo) (v &&& 0x0F)`. A full reset counts as a zero in each address of the range. -/
def tells (k : WriteHook) : Action → List Call
  | resetNotifying => k.range.addresses.map fun a ↦ k.report (a, 0)
  | o => (o.stores.filter (k.range.contains ·.1)).map k.report

end Action

abbrev History := List Action

namespace History

variable (h : History)

/-- The operations behind the last one of a kind, or all if there is none of that kind. -/
def since (kind : Action → Bool) : History := h.rtakeWhile fun o ↦ !kind o

def before (kind : Action → Bool) : History := (h.rdropWhile fun o ↦ !kind o).dropLast

def lastHook {α : Type} (hook? : Action → Option (Option α)) : Option α :=
  (h.reverse.findSome? hook?).join

def peek (a : UInt16) : UInt8 :=
  (latest? ((h.since Action.zeroes).flatMap Action.stores) a).getD 0

def readHook : Option ReadHook :=
  (h.lastHook Action.readHook?).map
    (·.consulted ((h.since (·.readHook?.isSome)).flatMap Action.reads))

def writeHook : Option WriteHook := h.lastHook Action.writeHook?

/-- What the watcher that was put in last has been told since. -/
def told : List Call :=
  match h.writeHook with
  | some k => (h.since (·.writeHook?.isSome)).flatMap (Action.tells k)
  | none => []

end History

variable {m : Memory} {a b : UInt16} {v : UInt8} {k : WriteHook} {o : Action}

theorem act_hookReads (m : Memory) (range : AddressRange) (reader? : Option Reader) :
    m.act (.hookReads range reader?) =
      { m with readHook := (Action.hookReads range reader?).readHook?.join } := by
  cases reader? with
  | none => rfl
  | some reader =>
    rw [act, hookReads, AddressRange.isEmpty, Action.readHook?, Option.join_some]
    by_cases h : range.lo ≤ range.hi
    · rw [if_pos h, if_neg (mt of_decide_eq_true (UInt16.not_lt.2 h))]
    · rw [if_neg h, if_pos (decide_eq_true (UInt16.not_le.1 h))]
      rfl

theorem act_hookWrites (m : Memory) (range : AddressRange) (watcher? : Option Watcher) :
    m.act (.hookWrites range watcher?) =
      { m with writeHook := (Action.hookWrites range watcher?).writeHook?.join } := by
  cases watcher? with
  | none => rfl
  | some watcher =>
    rw [act, hookWrites, AddressRange.isEmpty, Action.writeHook?, Option.join_some]
    by_cases h : range.lo ≤ range.hi
    · rw [if_pos h, if_neg (mt of_decide_eq_true (UInt16.not_lt.2 h))]
    · rw [if_neg h, if_pos (decide_eq_true (UInt16.not_le.1 h))]
      rfl

theorem exists_resetNotifying (m : Memory) :
    ∃ calls, m.resetNotifying = { m.reset with calls := calls } := by
  cases hk : m.writeHook with
  | none =>
    rw [resetNotifying, hk]
    exact ⟨m.calls, rfl⟩
  | some k => exact ⟨_, resetNotifying_eq m hk⟩

theorem load_eq_writeAll (m : Memory) (a : UInt16) (vs : List UInt8) (n : Nat) :
    m.load (a + UInt16.ofNat n) vs =
      m.writeAll ((vs.zipIdx n).map fun (v, i) ↦ (a + UInt16.ofNat i, v)) := by
  induction vs generalizing m n with
  | nil => rfl
  | cons v vs ih =>
    have hnext : a + UInt16.ofNat n + 1 = a + UInt16.ofNat (n + 1) := by
      rw [UInt16.ofNat_add, UInt16.add_assoc]
      rfl
    rw [load, hnext]
    exact ih (m.write (a + UInt16.ofNat n) v) (n + 1)

theorem load_eq_stores (m : Memory) (a : UInt16) (vs : List UInt8) :
    m.load a vs = m.writeAll (Action.load a vs).stores := by
  have h := m.load_eq_writeAll a vs 0
  have hzero : a + UInt16.ofNat 0 = a := UInt16.add_zero a
  rw [hzero] at h
  exact h

theorem writeHook_writeAll (m : Memory) (ws : List Write) :
    (m.writeAll ws).writeHook = m.writeHook := by
  induction ws generalizing m with
  | nil => rfl
  | cons w ws ih => exact (ih (m.write w.1 w.2)).trans (m.writeHook_write w.1 w.2)

theorem readHook_writeAll (m : Memory) (ws : List Write) :
    (m.writeAll ws).readHook = m.readHook := by
  induction ws generalizing m with
  | nil => rfl
  | cons w ws ih => exact (ih (m.write w.1 w.2)).trans (m.readHook_write w.1 w.2)

theorem told_writeAll (m : Memory) (ws : List Write) :
    (m.writeAll ws).told = m.told ++ ws.filterMap m.callOf := by
  induction ws generalizing m with
  | nil => exact (List.append_nil _).symm
  | cons w ws ih =>
    have hcall : (m.write w.1 w.2).callOf = m.callOf := callOf_congr (m.writeHook_write w.1 w.2)
    have hrest := ih (m.write w.1 w.2)
    rw [told_write, hcall, List.append_assoc] at hrest
    refine hrest.trans ?_
    rw [List.filterMap_cons]
    cases m.callOf w with
    | none => rfl
    | some c => rfl

theorem filterMap_callOf (m : Memory) (ws : List Write) : ws.filterMap m.callOf =
    m.writeHook.elim [] fun k ↦
      (ws.filter (k.range.contains ·.1)).map k.report := by
  cases hk : m.writeHook with
  | none =>
    refine List.filterMap_eq_nil_iff.2 fun w _ ↦ ?_
    rw [callOf, hk, Option.bind_none]
  | some k =>
    rw [Option.elim_some]
    induction ws with
    | nil => rfl
    | cons w ws ih =>
      by_cases hw : k.range.contains w.1 = true
      · have hcall : m.callOf w = some (k.report w) := by
          rw [callOf, hk, Option.bind_some, if_pos hw]
        rw [List.filterMap_cons_some hcall, List.filter_cons, if_pos hw, List.map_cons, ih]
      · have hcall : m.callOf w = none := by
          rw [callOf, hk, Option.bind_some, if_neg hw]
        rw [List.filterMap_cons_none hcall, List.filter_cons, if_neg hw, ih]

theorem told_resetNotifying (hk : m.writeHook = some k) :
    m.resetNotifying.told = m.told ++ Action.resetNotifying.tells k := by
  have hcalls : k.range.addresses.filterMap (fun a ↦ m.callOf (a, 0)) =
      k.range.addresses.map fun a ↦ k.report (a, 0) := by
    rw [← List.filterMap_eq_map]
    refine List.filterMap_congr fun a ha ↦ ?_
    rw [callOf, hk, Option.bind_some, if_pos (k.range.mem_addresses.1 ha)]
    rfl
  have htells : ∀ c ∈ k.range.addresses.map fun a ↦ k.report (a, 0), c.tells = true := by
    intro c hc
    rw [← hcalls] at hc
    obtain ⟨a, -, ha⟩ := List.mem_filterMap.1 hc
    exact tells_of_callOf ha
  rw [resetNotifying_eq m hk, hcalls, told, Array.toList_append, List.filter_append,
    List.filter_eq_self.2 htells]
  rfl

theorem peek_act (m : Memory) (o : Action) (a : UInt16) : (m.act o).peek a =
    if o.zeroes then 0 else (latest? o.stores a).getD (m.peek a) := by
  cases o with
  | write b v => exact m.peek_writeAll [(b, v)] a
  | load b vs =>
    rw [act, load_eq_stores]
    exact m.peek_writeAll _ a
  | reset => exact peek_reset
  | resetNotifying => exact peek_resetNotifying
  | hookReads range reader? =>
    rw [act_hookReads]
    rfl
  | hookWrites range watcher? =>
    rw [act_hookWrites]
    rfl
  | read b => exact peek_read
  | readWord b => exact peek_read.trans peek_read
  | clearReadHook | clearWriteHook | peek b => rfl

theorem map_consulted_nil (k? : Option ReadHook) : k?.map (·.consulted []) = k? := by
  cases k? with
  | none => rfl
  | some k => simp only [Option.map_some, ReadHook.consulted, List.filter_nil, Array.append_empty]

theorem readHook_act (m : Memory) (o : Action) : (m.act o).readHook =
    o.readHook?.getD (m.readHook.map (·.consulted o.reads)) := by
  cases o with
  | write b v => exact (m.readHook_write b v).trans (map_consulted_nil _).symm
  | load b vs =>
    rw [act, load_eq_stores]
    exact (m.readHook_writeAll _).trans (map_consulted_nil _).symm
  | resetNotifying =>
    obtain ⟨calls, h⟩ := m.exists_resetNotifying
    rw [act, h]
    exact (map_consulted_nil _).symm
  | hookReads range reader? =>
    rw [act_hookReads]
    cases reader? <;> rfl
  | hookWrites range watcher? =>
    rw [act_hookWrites]
    exact (map_consulted_nil _).symm
  | clearReadHook => rfl
  | reset | clearWriteHook | peek b => exact (map_consulted_nil _).symm
  | read b => exact m.readHook_read b
  | readWord b =>
    have htwice : (m.act (.readWord b)).readHook = ((m.read b).2.read (b + 1)).2.readHook := rfl
    rw [htwice, readHook_read, readHook_read, Option.map_map]
    refine Option.map_congr fun k _ ↦ ?_
    exact (k.consulted_append [b] [b + 1]).symm

theorem writeHook_act (m : Memory) (o : Action) :
    (m.act o).writeHook = o.writeHook?.getD m.writeHook := by
  cases o with
  | write b v => exact m.writeHook_write b v
  | load b vs =>
    rw [act, load_eq_stores]
    exact m.writeHook_writeAll _
  | resetNotifying =>
    obtain ⟨calls, h⟩ := m.exists_resetNotifying
    rw [act, h]
    rfl
  | hookReads range reader? =>
    rw [act_hookReads]
    rfl
  | hookWrites range watcher? =>
    rw [act_hookWrites]
    cases watcher? <;> rfl
  | read b => exact writeHook_read
  | readWord b => exact writeHook_read.trans writeHook_read
  | reset | clearReadHook | clearWriteHook | peek b => rfl

theorem told_act (m : Memory) (o : Action) :
    (m.act o).told = m.told ++ m.writeHook.elim [] o.tells := by
  have hsilent (h : ∀ k, o.tells k = []) : m.told = m.told ++ m.writeHook.elim [] o.tells := by
    cases m.writeHook with
    | none => exact (List.append_nil _).symm
    | some k => rw [Option.elim_some, h, List.append_nil]
  cases o with
  | write b v =>
    have h := m.told_writeAll (Action.write b v).stores
    rw [filterMap_callOf] at h
    exact h
  | load b vs =>
    have h := m.told_writeAll (Action.load b vs).stores
    rw [filterMap_callOf, ← load_eq_stores] at h
    exact h
  | resetNotifying =>
    rw [act]
    cases hk : m.writeHook with
    | none =>
      rw [resetNotifying, hk, Option.elim_none, List.append_nil]
      rfl
    | some k => exact told_resetNotifying hk
  | hookReads range reader? =>
    rw [act_hookReads]
    exact hsilent fun k ↦ rfl
  | hookWrites range watcher? =>
    rw [act_hookWrites]
    exact hsilent fun k ↦ rfl
  | read b => exact (m.told_read b).trans (hsilent fun k ↦ rfl)
  | readWord b =>
    exact ((m.read b).2.told_read (b + 1)).trans ((m.told_read b).trans (hsilent fun k ↦ rfl))
  | reset | clearReadHook | clearWriteHook | peek b => exact hsilent fun k ↦ rfl

namespace History

variable (h : History) (o : Action) (kind : Action → Bool)

theorem since_concat : since (h ++ [o]) kind = if kind o then [] else h.since kind ++ [o] := by
  rw [since, List.rtakeWhile_concat, since]
  cases kind o with
  | true => rfl
  | false => rfl

theorem before_concat : before (h ++ [o]) kind = if kind o then h else h.before kind := by
  rw [before, List.rdropWhile_concat, before]
  cases kind o with
  | true => exact List.dropLast_concat
  | false => rfl

theorem lastHook_concat {α : Type} (hook? : Action → Option (Option α)) :
    lastHook (h ++ [o]) hook? = (hook? o).getD (h.lastHook hook?) := by
  rw [lastHook, List.reverse_append, List.reverse_singleton, List.singleton_append,
    List.findSome?_cons, lastHook]
  cases hook? o with
  | none => rfl
  | some k? => rfl

theorem peek_concat (a : UInt16) : peek (h ++ [o]) a =
    if o.zeroes then 0 else (latest? o.stores a).getD (h.peek a) := by
  rw [peek, since_concat]
  cases o.zeroes with
  | true => rfl
  | false =>
    rw [if_neg Bool.false_ne_true, if_neg Bool.false_ne_true, List.flatMap_append,
      List.flatMap_singleton, latest?_append, Option.getD_or]
    rfl

theorem readHook_concat : readHook (h ++ [o]) =
    o.readHook?.getD (h.readHook.map (·.consulted o.reads)) := by
  rw [readHook, since_concat, lastHook_concat]
  cases o.readHook? with
  | some k? => exact map_consulted_nil k?
  | none =>
    rw [Option.isSome_none, if_neg Bool.false_ne_true, List.flatMap_append, List.flatMap_singleton,
      Option.getD_none, Option.getD_none, readHook, Option.map_map]
    exact Option.map_congr fun k _ ↦ k.consulted_append _ _

theorem told_concat : told (h ++ [o]) =
    if o.writeHook?.isSome then [] else h.told ++ h.writeHook.elim [] o.tells := by
  have hhook : writeHook (h ++ [o]) = o.writeHook?.getD h.writeHook := h.lastHook_concat o _
  rw [told, hhook, since_concat]
  cases o.writeHook? with
  | some k? => cases k? <;> rfl
  | none =>
    rw [Option.getD_none, told]
    cases h.writeHook with
    | none => rfl
    | some k => exact List.flatMap_append.trans (congrArg _ (List.flatMap_singleton _ _))

variable {h} in
theorem exists_of_lastHook {α : Type} {hook? : Action → Option (Option α)} {k : α}
    (hk : h.lastHook hook? = some k) : ∃ o, hook? o = some (some k) := by
  obtain ⟨o, -, ho⟩ := List.exists_of_findSome?_eq_some (Option.join_eq_some_iff.1 hk)
  exact ⟨o, ho⟩

end History

theorem Action.range_of_readHook? {k : ReadHook} (h : o.readHook? = some (some k)) :
    k.range.lo ≤ k.range.hi := by
  cases o with
  | hookReads range reader? =>
    cases reader? with
    | none => cases h
    | some reader =>
      obtain ⟨hle, hk⟩ := Option.ite_none_right_eq_some.1 (Option.some.inj h)
      rw [← Option.some.inj hk]
      exact hle
  | _ => cases h

theorem Action.range_of_writeHook? (h : o.writeHook? = some (some k)) :
    k.range.lo ≤ k.range.hi := by
  cases o with
  | hookWrites range watcher? =>
    cases watcher? with
    | none => cases h
    | some watcher =>
      obtain ⟨hle, hk⟩ := Option.ite_none_right_eq_some.1 (Option.some.inj h)
      rw [← Option.some.inj hk]
      exact hle
  | _ => cases h

theorem Action.tells_of_writeHook? {k? : Option WriteHook} (h : o.writeHook? = some k?) :
    o.tells k = [] := by
  cases o with
  | hookWrites range watcher? | clearWriteHook => rfl
  | _ => cases h

theorem after_concat (m : Memory) (h : History) (o : Action) :
    m.after (h ++ [o]) = (m.after h).act o := by
  rw [after, List.foldl_append]
  rfl

theorem peek_after (h : History) (a : UInt16) : (blank.after h).peek a = h.peek a := by
  induction h using List.reverseRecOn with
  | nil => exact peek_blank
  | append_singleton h o ih => rw [after_concat, peek_act, ih, History.peek_concat]

theorem readHook_after (h : History) : (blank.after h).readHook = h.readHook := by
  induction h using List.reverseRecOn with
  | nil => rfl
  | append_singleton h o ih => rw [after_concat, readHook_act, ih, History.readHook_concat]

theorem writeHook_after (h : History) : (blank.after h).writeHook = h.writeHook := by
  induction h using List.reverseRecOn with
  | nil => rfl
  | append_singleton h o ih =>
    rw [after_concat, writeHook_act, ih]
    exact (History.lastHook_concat h o _).symm

theorem told_after (h : History) : (blank.after h).told =
    (blank.after (h.before (·.writeHook?.isSome))).told ++ h.told := by
  induction h using List.reverseRecOn with
  | nil => rfl
  | append_singleton h o ih =>
    rw [after_concat, told_act, writeHook_after, History.before_concat, History.told_concat]
    cases hk : o.writeHook? with
    | none =>
      rw [Option.isSome_none, if_neg Bool.false_ne_true, if_neg Bool.false_ne_true, ih,
        List.append_assoc]
    | some k? =>
      have hsilent : (History.writeHook h).elim [] o.tells = [] := by
        cases History.writeHook h with
        | none => rfl
        | some k => exact o.tells_of_writeHook? hk
      rw [Option.isSome_some, if_pos rfl, if_pos rfl, hsilent]

variable (m) in
/-- What a memory knows of the operations on it: the byte written last to each address since the
last reset, the hooks that were put in last and not taken out since, and what these were asked and
told. A read in the range of a reader is answered by it, which is asked once, and any other read by
the stored byte. -/
structure Remembers (h : History) : Prop where
  peek : ∀ a, m.peek a = h.peek a
  readHook : m.readHook = h.readHook
  writeHook : m.writeHook = h.writeHook
  readRange : ∀ k ∈ m.readHook, k.range.lo ≤ k.range.hi
  writeRange : ∀ k ∈ m.writeHook, k.range.lo ≤ k.range.hi
  told : m.told = (blank.after (h.before (·.writeHook?.isSome))).told ++ h.told
  read_hooked : ∀ k ∈ m.readHook, ∀ a, k.range.contains a = true →
    m.read a = (k.reader.answer (k.asked.push a),
      { m with
        readHook := some { k with asked := k.asked.push a }
        calls := m.calls ++ k.callsOf a })
  read_unhooked : ∀ a, m.Unhooked a → m.read a = (m.peek a, m)

-- A row of bytes over the top of memory, which the watcher of all of it is told of, and a byte
-- written behind a registration that takes the watcher out.
example :
    let h : History := [.hookWrites ⟨0, 0xFFFF⟩ (some .host), .load 0xFFFF [1, 2]]
    h.told = [.write 0xFFFF 1, .write 0 2] ∧
      History.told (h ++ [.hookWrites ⟨2, 1⟩ (some .host), .write 0 3]) = [] := by
  decide

end Memory

end Micro6502
