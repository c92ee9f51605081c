import Micro6502.Proofs.Overlay
import Micro6502.Proofs.TwoPass

namespace Micro6502

namespace Effect

variable {e e' : Effect} {pc : Nat}

def values : Effect → List UInt8
  | bytes vs => vs
  | relocate _ => []

theorem next_le_of_fit (h : e.fit pc = .ok e') : e'.next pc ≤ 0x10000 := by
  cases e with
  | bytes vs =>
    simp only [fit] at h
    split at h
    · rename_i hb
      cases h
      exact hb
    · cases h
  | relocate a =>
    cases h
    exact Nat.le_of_lt a.toNat_lt

theorem map_value_place (pc : Nat) (bs : List UInt8) : (place pc bs).map Prod.snd = bs := by
  induction bs generalizing pc with
  | nil => rfl
  | cons b bs ih => rw [place, List.map_cons, ih]

theorem map_fst_place (pc : Nat) (bs : List UInt8) :
    (place pc bs).map Prod.fst = (List.range' pc bs.length).map UInt16.ofNat := by
  induction bs generalizing pc with
  | nil => rfl
  | cons b bs ih => rw [place, List.map_cons, ih, List.length_cons, List.range'_succ, List.map_cons]

theorem map_address_place {bs : List UInt8} (h : pc + bs.length ≤ 0x10000) :
    (place pc bs).map (fun w ↦ w.1.toNat) = List.range' pc bs.length := by
  have hfst : (place pc bs).map (fun w ↦ w.1.toNat) =
      ((List.range' pc bs.length).map UInt16.ofNat).map UInt16.toNat := by
    rw [← map_fst_place, List.map_map]
    rfl
  rw [hfst, List.map_map, List.map_congr_left (g := id), List.map_id]
  intro n hn
  obtain ⟨-, hlt⟩ := List.mem_range'_1.1 hn
  exact UInt16.toNat_ofNat_of_lt (show n < 0x10000 by omega)

theorem map_value_writes (e : Effect) (pc : Nat) : (e.writes pc).map Prod.snd = e.values := by
  cases e with
  | bytes vs => exact map_value_place pc vs
  | relocate a => rfl

theorem map_address_writes (h : e.next pc ≤ 0x10000) :
    (e.writes pc).map (fun w ↦ w.1.toNat) = List.range' pc e.values.length := by
  cases e with
  | bytes vs => exact map_address_place h
  | relocate a => rfl

end Effect

namespace Statement

variable {st : Statement} {pass : Pass} {t : SymbolTable} {pc : Nat} {e : Effect} {target : Text}

theorem relocation_eq_ok_iff {a : UInt16} :
    relocation target = .ok (.relocate a) ↔ Numeral.parse? target = some a.toNat := by
  unfold relocation
  cases Numeral.parse? target with
  | none => exact ⟨nofun, nofun⟩
  | some v =>
    have ha := a.toNat_lt
    dsimp only
    rw [Option.some.injEq]
    constructor
    · intro h
      split at h
      · rename_i hv
        cases h
        exact (UInt16.toNat_ofNat_of_lt (show v < 0x10000 by omega)).symm
      · cases h
    · rintro rfl
      rw [if_pos (by omega), UInt16.ofNat_toNat]

theorem effect_eq_relocate_iff {a : UInt16} : st.effect pass t pc = .ok (.relocate a) ↔
    ∃ target, st = .relocate target ∧ Numeral.parse? target = some a.toNat := by
  cases st with
  | empty => simp [effect]
  | relocate target =>
    have hparse : (relocate target).effect pass t pc = .ok (.relocate a) ↔ _ := relocation_eq_ok_iff
    simp [hparse]
  | bytes list =>
    have hbytes : (bytes list).effect pass t pc ≠ .ok (.relocate a) := by
      intro h
      obtain ⟨bs, -, hbs⟩ := Except.map_eq_ok_iff.1 h
      cases hbs
    simp [hbytes]
  | instruction m operand =>
    have hbytes : (instruction m operand).effect pass t pc ≠ .ok (.relocate a) := by
      intro h
      obtain ⟨bs, -, hbs⟩ := Except.map_eq_ok_iff.1 h
      cases hbs
    simp [hbytes]

theorem exists_bytes_of_effect (hst : ∀ target, st ≠ .relocate target)
    (h : st.effect pass t pc = .ok e) : ∃ bs, e = .bytes bs := by
  cases e with
  | bytes vs => exact ⟨vs, rfl⟩
  | relocate a =>
    obtain ⟨target, ht, -⟩ := effect_eq_relocate_iff.1 h
    exact absurd ht (hst target)

end Statement

namespace Pass

variable {pass : Pass} {number pc end_ : Nat} {s s' t : SymbolTable} {text : Text}
  {lines : List Text} {e : Effect} {v : Visit}

theorem next_le_of_line (hpc : pc ≤ 0x10000) (h : pass.line number pc s text = .ok (s', e)) :
    e.next pc ≤ 0x10000 := by
  obtain ⟨-, -, -, rfl⟩ | ⟨l, -, -, he⟩ := line_eq_ok_iff.1 h
  · exact hpc
  · cases hr : l.statement.effect pass s' pc >>= Effect.fit pc with
    | error reason =>
      rw [hr] at he
      cases pass with
      | index =>
        cases he
        exact hpc
      | commit => cases he
    | ok f =>
      -- What an effect must fit into is the memory behind the counter, so the bound holds anew.
      rw [hr, excuse_ok] at he
      cases he
      obtain ⟨f', -, hf⟩ := Except.bind_eq_ok_iff.1 hr
      exact Effect.next_le_of_fit hf

theorem counter_walk_le (hpc : pc ≤ 0x10000)
    (h : (pass.walk number pc s lines).counter = .ok end_) : end_ ≤ 0x10000 := by
  induction lines generalizing number pc s with
  | nil =>
    cases h
    exact hpc
  | cons text rest ih =>
    obtain ⟨s', e, hl, hr⟩ := walk_cons_counter h
    exact ih (next_le_of_line hpc hl) hr

theorem pc_le_of_mem_visits (hpc : pc ≤ 0x10000) (hv : v ∈ pass.visits number pc s lines) :
    v.pc ≤ 0x10000 := by
  obtain ⟨i, hi⟩ := List.mem_iff_getElem?.1 hv
  exact counter_walk_le hpc (counter_walk_take hi)

theorem next_le_of_mem_visits_commit (hv : v ∈ commit.visits number pc t lines)
    (hpc : pc ≤ 0x10000) : v.next ≤ 0x10000 :=
  next_le_of_line (pc_le_of_mem_visits hpc hv) (line_of_mem_visits_commit hv)

/-- The program counter of each line is the effect of the line before it on that line's own. -/
theorem scanl_visits (h : (pass.walk number pc s lines).counter = .ok end_) :
    ((pass.visits number pc s lines).map Visit.effect).scanl (fun pc e ↦ e.next pc) pc =
      (pass.visits number pc s lines).map Visit.pc ++ [end_] := by
  induction lines generalizing number pc s with
  | nil =>
    cases h
    rfl
  | cons text rest ih =>
    obtain ⟨s', e, hl, hr⟩ := walk_cons_counter h
    rw [visits_cons_ok hl, List.map_cons, List.scanl_cons, ih hr]
    rfl

theorem walk_of_bytes (h : (pass.walk number pc s lines).counter = .ok end_)
    (hb : ∀ v ∈ pass.visits number pc s lines, ∃ bs, v.effect = .bytes bs) :
    ∃ bs, (pass.walk number pc s lines).writes = Effect.place pc bs ∧
      end_ = pc + bs.length := by
  induction lines generalizing number pc s with
  | nil =>
    cases h
    exact ⟨[], rfl, rfl⟩
  | cons text rest ih =>
    obtain ⟨s', e, hl, hr⟩ := walk_cons_counter h
    rw [visits_cons_ok hl] at hb
    obtain ⟨⟨bs, rfl⟩, hrest⟩ := List.forall_mem_cons.1 hb
    obtain ⟨cs, hcs, rfl⟩ := ih hr hrest
    refine ⟨bs ++ cs, ?_, ?_⟩
    · rw [walk_cons_ok hl, Effect.place_append]
      exact congrArg (Effect.place pc bs ++ ·) hcs
    · rw [Effect.next, List.length_append, Nat.add_assoc]

theorem statement_of_mem_visits_commit (hv : v ∈ commit.visits number pc t lines) :
    ∃ l, Line.parse? v.text = some l ∧ l.statement.effect commit t v.pc = .ok v.effect := by
  obtain ⟨-, l, hl, he⟩ := line_commit_ok (line_of_mem_visits_commit hv)
  obtain ⟨f, hf, hfit⟩ := Except.bind_eq_ok_iff.1 he
  obtain rfl := Effect.fit_ok hfit
  exact ⟨l, hl, hf⟩

end Pass

/-- The lines of a source in memory: each stands where the one before it leaves the program counter,
the first at the origin, and its bytes lie from there on. -/
structure Layout (origin : UInt16) (source : Text) (table : SymbolTable) (visits : List Visit)
    (end_ : Nat) : Prop where
  texts : visits.map Visit.text = source.lines
  effects : ∀ v ∈ visits, ∃ l, Line.parse? v.text = some l ∧
    l.statement.effect .commit table v.pc = .ok v.effect
  relocations : ∀ v ∈ visits, ∀ a, v.effect = .relocate a ↔
    ∃ l target, Line.parse? v.text = some l ∧ l.statement = .relocate target ∧
      Numeral.parse? target = some a.toNat
  counters : (visits.map Visit.effect).scanl (fun pc e ↦ e.next pc) origin.toNat =
    visits.map Visit.pc ++ [end_]
  bounds : ∀ pc ∈ visits.map Visit.pc ++ [end_], pc ≤ 0x10000
  addresses : ∀ v ∈ visits,
    v.writes.map (fun w ↦ w.1.toNat) = List.range' v.pc v.effect.values.length
  values : ∀ v ∈ visits, v.writes.map Prod.snd = v.effect.values

theorem Pass.layout_commit {origin : UInt16} {source : Text} {t : SymbolTable} {end_ : Nat}
    (h : (Pass.commit.walk 1 origin.toNat t source.lines).counter = .ok end_) :
    Layout origin source t (Pass.commit.visits 1 origin.toNat t source.lines) end_ := by
  have horigin : origin.toNat ≤ 0x10000 := Nat.le_of_lt origin.toNat_lt
  constructor
  case texts => exact map_text_visits h
  case effects => exact fun v hv ↦ statement_of_mem_visits_commit hv
  case relocations =>
    intro v hv a
    obtain ⟨l, hl, he⟩ := statement_of_mem_visits_commit hv
    constructor
    · intro ha
      obtain ⟨target, ht, hparse⟩ := Statement.effect_eq_relocate_iff.1 (ha ▸ he)
      exact ⟨l, target, hl, ht, hparse⟩
    · rintro ⟨l', target, hl', ht, hparse⟩
      obtain rfl : l = l' := Option.some.inj (hl.symm.trans hl')
      exact Except.ok.inj
        (he.symm.trans (Statement.effect_eq_relocate_iff.2 ⟨target, ht, hparse⟩))
  case counters => exact scanl_visits h
  case bounds =>
    intro pc hpc
    rw [List.mem_append, List.mem_singleton] at hpc
    obtain hpc | rfl := hpc
    · obtain ⟨v, hv, rfl⟩ := List.mem_map.1 hpc
      exact pc_le_of_mem_visits horigin hv
    · exact counter_walk_le horigin h
  case addresses =>
    intro v hv
    exact Effect.map_address_writes (next_le_of_mem_visits_commit hv horigin)
  case values => exact fun v hv ↦ Effect.map_value_writes v.effect v.pc

namespace Assembler

variable {a : Assembler} {source : Text} {m : Memory} {n : Nat}

theorem addresses_of_no_relocation {end_ : Nat}
    (h : (a.commitWalk source).counter = .ok end_)
    (hr : ∀ text ∈ source.lines, ∀ l target, Line.parse? text = some l →
      l.statement ≠ .relocate target) :
    (a.commitWalk source).writes.map (fun w ↦ w.1.toNat) =
        List.range' a.origin.toNat (a.commitWalk source).writes.length ∧
      a.origin.toNat + (a.commitWalk source).writes.length ≤ 0x10000 := by
  have htexts := Pass.map_text_visits h
  have hb : ∀ v ∈ Pass.commit.visits 1 a.origin.toNat (a.indexWalk source).symbols source.lines,
      ∃ bs, v.effect = .bytes bs := by
    intro v hv
    have hv' : v.text ∈ source.lines := htexts ▸ List.mem_map_of_mem hv
    obtain ⟨l, hl, he⟩ := Pass.statement_of_mem_visits_commit hv
    exact Statement.exists_bytes_of_effect (fun target ↦ hr v.text hv' l target hl) he
  obtain ⟨bs, hbs, rfl⟩ := Pass.walk_of_bytes h hb
  have hfit : a.origin.toNat + bs.length ≤ 0x10000 :=
    Pass.counter_walk_le (Nat.le_of_lt a.origin.toNat_lt) h
  have hwrites : (a.commitWalk source).writes = Effect.place a.origin.toNat bs := hbs
  rw [hwrites, Effect.length_place]
  exact ⟨Effect.map_address_place hfit, hfit⟩

/-- What a successful assembly hands over: the bytes of the lines, line by line, each to the address
that the layout gives to it. Memory keeps the last byte for each address, and the bytes elsewhere.
-/
theorem assemble_layout (h : (a.assemble source m).result = .ok n) :
    let r := a.assemble source m
    let committed := ((a.runPass .index source).2.2.runPass .commit source).2.1
    ∃ visits end_, Layout a.origin source r.assembler.symbols visits end_ ∧
      committed = visits.flatMap Visit.writes ∧ r.memory = m.writeAll committed ∧
      committed.length = n ∧ r.assembler.codeLength = n ∧
      r.assembler.endAddress.toNat = end_ % 0x10000 ∧
      (∀ b, r.memory.peek b = (latest? committed b).getD (m.peek b)) ∧
      (∀ b, b ∉ committed.map Prod.fst → r.memory.peek b = m.peek b) ∧
      ((∀ text ∈ source.lines, ∀ l target, Line.parse? text = some l →
          l.statement ≠ .relocate target) →
        committed.map (fun w ↦ w.1.toNat) = List.range' a.origin.toNat n ∧
          a.origin.toNat + n ≤ 0x10000) := by
  obtain ⟨pc, end_, hi, hc, -, rfl⟩ := assemble_ok_iff.1 h
  obtain ⟨hm, ha⟩ := assemble_ok (m := m) hi hc
  dsimp only
  rw [hm, ha]
  refine ⟨_, end_, Pass.layout_commit hc, Pass.writes_walk, rfl, rfl, rfl, ?_, ?_, ?_, ?_⟩
  · exact UInt16.toNat_ofNat'
  · intro b
    exact Memory.peek_writeAll m _ b
  · intro b hb
    rw [Memory.peek_writeAll]
    exact congrArg (·.getD (m.peek b)) (latest?_eq_none hb)
  · exact addresses_of_no_relocation hc

def scattered : Text := "NOP\n* = $FFFE\nlast: DCB 1,2\nDCB\n*=$0600\nLDX #>last".toList

theorem assemble_layout_scattered :
    let r := standard.assemble scattered .blank
    r.result = .ok 5 ∧
      (∃ visits, Layout standard.origin scattered r.assembler.symbols visits 0x0602) ∧
      r.memory.peek 0x0600 = 0xA2 ∧ r.memory.peek 0xFFFF = 2 ∧ r.memory.peek 0 = 0 := by
  intro r
  have h : r.result = .ok 5 := by decide +kernel
  have haddress : r.assembler.endAddress.toNat = 0x0602 := by decide +kernel
  obtain ⟨visits, end_, hlayout, -, -, -, -, hend, hpeek, -⟩ := assemble_layout h
  have hbound : end_ ≤ 0x10000 :=
    hlayout.bounds end_ (List.mem_append_right _ (List.mem_singleton_self end_))
  -- The end address is the last counter modulo the size of memory. Only 0 stands for two of them.
  obtain rfl : 0x0602 = end_ := by
    have hmod : end_ % 0x10000 = 0x0602 := hend.symm.trans haddress
    omega
  refine ⟨h, ⟨visits, hlayout⟩, ?_, ?_, ?_⟩
  · rw [hpeek]
    decide +kernel
  · rw [hpeek]
    decide +kernel
  · rw [hpeek]
    decide +kernel

end Assembler

end Micro6502
