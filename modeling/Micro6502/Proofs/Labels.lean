import Micro6502.Proofs.TwoPass

namespace Micro6502

def Operand.field (address : UInt16) : Operand → List UInt8
  | .label _ => [UInt8.ofNat (address.toNat % 256), UInt8.ofNat (address.toNat / 256)]
  | .lowByte _ => [UInt8.ofNat (address.toNat % 256)]
  | .highByte _ => [UInt8.ofNat (address.toNat / 256)]
  | _ => []

/-- The operand bytes of an instruction at an address agree with a table on the label that the
operand names. Half of the address of a label that the table does not list is 0. -/
def Reading.Denotes (t : SymbolTable) (pc : Nat) (r : Reading) (bs : List UInt8) : Prop :=
  match r.operand with
  | .label name => ∃ s ∈ t.symbols, s.name = name ∧
      if r.mode = .relative then
        ∃ d : Int, -128 ≤ d ∧ d ≤ 127 ∧ (pc : Int) + 2 + d = s.address.toNat ∧ bs = [UInt8.ofInt d]
      else bs = r.operand.field s.address
  | .lowByte name | .highByte name =>
    (∃ s ∈ t.symbols, s.name = name ∧ bs = r.operand.field s.address) ∨
      (∀ s ∈ t.symbols, s.name ≠ name) ∧ bs = [0]
  | _ => True

namespace Site

variable {pc : Nat} {t : SymbolTable}

theorem branchOffset_commit_ok {target : UInt16} {b : UInt8} (hpc : pc ≤ 0xFFFF)
    (h : (Site.mk (UInt16.ofNat pc) .commit t).branchOffset target = .ok b) :
    ∃ d : Int, -128 ≤ d ∧ d ≤ 127 ∧ (pc : Int) + 2 + d = target.toNat ∧ b = UInt8.ofInt d := by
  obtain ⟨hd, rfl⟩ := (branchOffset_commit_eq_ok_iff rfl).1 h
  have hp : (UInt16.ofNat pc).toNat = pc := UInt16.toNat_ofNat_of_lt (Nat.lt_succ_of_le hpc)
  refine ⟨_, hd.1, hd.2, ?_, rfl⟩
  simp only [displacement, hp]
  omega

theorem resolve_commit_ok {name : Text} {a : Option UInt16}
    (h : (Site.mk (UInt16.ofNat pc) .commit t).resolve name = .ok a) :
    ∃ s ∈ t.symbols, s.name = name ∧ a = some s.address := by
  unfold resolve at h
  cases ha : t.address? name with
  | none =>
    simp only [ha] at h
    exact absurd h nofun
  | some b =>
    simp only [ha] at h
    obtain ⟨s, hs, hn, rfl⟩ := SymbolTable.address?_some ha
    exact ⟨s, hs, hn, (Except.ok.inj h).symm⟩

theorem wordBytes_eq (name : Text) (a : UInt16) : wordBytes a = (Operand.label name).field a := by
  rw [wordBytes, Word.low_eq, Word.high_eq, Operand.field]

theorem denotes_operandBytes {r : Reading} {bs : List UInt8} (hpc : pc ≤ 0xFFFF)
    (h : (Site.mk (UInt16.ofNat pc) .commit t).operandBytes r.mode r.operand = .ok bs) :
    r.Denotes t pc bs := by
  obtain ⟨i, o⟩ := r
  cases o with
  | none | hex ds | decimal ds => trivial
  | label name =>
    obtain ⟨a, ha, h⟩ := Except.bind_eq_ok_iff.1 h
    obtain ⟨s, hs, hn, rfl⟩ := resolve_commit_ok ha
    refine ⟨s, hs, hn, ?_⟩
    split at h
    · rename_i hr
      obtain ⟨b, hb, rfl⟩ := Except.map_eq_ok_iff.1 h
      obtain ⟨d, hlo, hhi, hd, rfl⟩ := branchOffset_commit_ok hpc hb
      rw [if_pos hr]
      exact ⟨d, hlo, hhi, hd, rfl⟩
    · rename_i hr
      rw [if_neg hr, ← wordBytes_eq]
      exact (Except.ok.inj h).symm
  | lowByte name | highByte name =>
    cases h
    cases ha : t.address? name with
    | none => exact .inr ⟨SymbolTable.address?_none ha, rfl⟩
    | some a =>
      obtain ⟨s, hs, hn, rfl⟩ := SymbolTable.address?_some ha
      refine .inl ⟨s, hs, hn, ?_⟩
      simp only [Option.map_some, Option.getD_some, Word.low_eq, Word.high_eq, Operand.field]

end Site

namespace Visit

def reading? (v : Visit) : Option Reading := do
  let l ← Line.parse? v.text
  match l.statement with
  | .instruction name operand => (← Mnemonic.ofName? name).read? operand
  | _ => none

theorem denotes_of_reading? {t : SymbolTable} {v : Visit} {r : Reading}
    (h : Pass.commit.line v.number v.pc t v.text = .ok (t, v.effect)) (hr : v.reading? = some r) :
    ∃ opcode bs, Instruction.decode opcode = some r.toInstruction ∧
      v.effect = .bytes (opcode :: bs) ∧ r.Denotes t v.pc bs := by
  obtain ⟨-, l, hl, he⟩ := Pass.line_commit_ok h
  simp only [reading?, hl, Option.bind_eq_bind, Option.bind_some] at hr
  cases hst : l.statement with
  | empty | relocate target | bytes list =>
    rw [hst] at hr
    cases hr
  | instruction name operand =>
    rw [hst] at hr he
    obtain ⟨m, hm, hr⟩ := Option.bind_eq_some_iff.1 hr
    obtain ⟨e, he, hf⟩ := Except.bind_eq_ok_iff.1 he
    rw [Effect.fit_ok hf]
    obtain ⟨vs, hvs, rfl⟩ := Except.map_eq_ok_iff.1 he
    simp only [Statement.instruct, hm] at hvs
    split at hvs
    · rename_i hpc
      obtain ⟨r', opcode, bs, hr', ho, hb, rfl⟩ := Site.encode_eq_ok_iff.1 hvs
      obtain rfl : r = r' := Option.some.inj (hr.symm.trans hr')
      exact ⟨opcode, bs, ho, rfl, Site.denotes_operandBytes hpc hb⟩
    · cases hvs

end Visit

/-- A table and the visits of a commit pass that knows it agree on the labels of a source. The
counter of a visit is the program counter of the pass on reaching the line. -/
structure LabelsAgree (origin : UInt16) (source : Text) (table : SymbolTable)
    (visits : List Visit) : Prop where
  texts : visits.map Visit.text = source.lines
  numbers : visits.map Visit.number = List.range' 1 source.lines.length
  counters : ∀ i v, visits[i]? = some v →
    (Pass.commit.walk 1 origin.toNat table (source.lines.take i)).counter = .ok v.pc
  symbols : table.symbols = visits.filterMap Visit.symbol?
  distinct : table.Distinct
  addresses : ∀ v ∈ visits, ∀ s, v.symbol? = some s → s.address.toNat = v.pc
  operands : ∀ v ∈ visits, ∀ r, v.reading? = some r →
    ∃ opcode bs, Instruction.decode opcode = some r.toInstruction ∧
      v.effect = .bytes (opcode :: bs) ∧ r.Denotes table v.pc bs

namespace Assembler

variable {a : Assembler} {source : Text} {m : Memory} {n : Nat}

/-- Where an assembly succeeds, the table that the index pass has filled lists the labels of the
lines at the addresses that the commit pass gives to them, and every operand that names a label
holds its address. -/
theorem labels_agree (h : (a.assemble source m).result = .ok n) :
    let r := a.assemble source m
    let visits := Pass.commit.visits 1 a.origin.toNat r.assembler.symbols source.lines
    r.memory = m.writeAll (visits.flatMap Visit.writes) ∧
      LabelsAgree a.origin source r.assembler.symbols visits := by
  obtain ⟨pc, pc', hi, hc, -⟩ := assemble_ok_iff.1 h
  obtain ⟨hm, ha⟩ := assemble_ok (m := m) hi hc
  have hv := Pass.visits_agree hi hc
  have hs : (a.indexWalk source).symbols.symbols = [] ++ _ := Pass.symbols_walk_index
  simp only [hm, ha]
  refine ⟨congrArg m.writeAll Pass.writes_walk, ?_⟩
  constructor
  case texts => exact Pass.map_text_visits hc
  case numbers => exact Pass.map_number_visits hc
  case counters =>
    intro i v hiv
    exact Pass.counter_walk_take hiv
  case symbols => exact hs.trans (Visit.filterMap_symbol?_eq hv)
  case distinct => exact Pass.distinct_walk_index SymbolTable.distinct_empty
  case addresses =>
    intro v hvm s hsv
    obtain ⟨name, hn, rfl⟩ := Option.map_eq_some_iff.1 hsv
    obtain ⟨w, hw, hwv⟩ := Visit.exists_agrees hv hvm
    have hpc : w.pc ≤ 0xFFFF := Pass.pc_le_of_mem_visits_index hw (hwv.label?.trans hn)
    rw [hwv.pc] at hpc
    exact UInt16.toNat_ofNat_of_lt (Nat.lt_succ_of_le hpc)
  case operands =>
    intro v hvm r hr
    exact Visit.denotes_of_reading? (Pass.line_of_mem_visits_commit hvm) hr

def forwardSource : Text :=
  ("LDX #<data\nBNE done\nJMP (data)\n*=$0680\ndone: DCB 1,2\ndata: LDY #>none\n" ++
    "BEQ done").toList

theorem labels_agree_forward : (standard.assemble forwardSource .blank).result = .ok 13 ∧
    let r := standard.assemble forwardSource .blank
    let visits := Pass.commit.visits 1 standard.origin.toNat r.assembler.symbols forwardSource.lines
    r.memory = Memory.blank.writeAll (visits.flatMap Visit.writes) ∧
      LabelsAgree standard.origin forwardSource r.assembler.symbols visits := by
  have h : (standard.assemble forwardSource .blank).result = .ok 13 := by decide +kernel
  exact ⟨h, labels_agree h⟩

end Assembler

end Micro6502
