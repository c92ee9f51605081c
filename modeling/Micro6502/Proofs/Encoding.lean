import Micro6502.Assembly.Encoding
import Micro6502.Proofs.Except

namespace Micro6502

namespace Operand

/-- Whether an operand is of a kind that a mode reads. -/
def Suits (mode : AddressingMode) : Operand → Prop
  | none => mode = .single
  | hex _ => mode ≠ .single
  | decimal _ => mode.operandSize = 1
  | label _ => mode.operandSize = 2 ∨ mode = .relative
  | lowByte _ | highByte _ => mode = .immediate

variable {t : Text} {o : Operand}

theorem hexNumber?_some {least most : Nat} (h : hexNumber? least most t = some o) :
    ∃ v, o = hex v := by
  unfold hexNumber? at h
  split at h
  · split at h
    · exact ⟨_, (Option.some.inj h).symm⟩
    · exact absurd h nofun
  · exact absurd h nofun

theorem decimalNumber?_some (h : decimalNumber? t = some o) : ∃ v, o = decimal v := by
  unfold decimalNumber? at h
  split at h
  · exact ⟨_, (Option.some.inj h).symm⟩
  · exact absurd h nofun

theorem label?_some (h : label? t = some o) : ∃ name, o = label name := by
  obtain ⟨name, -, rfl⟩ := Option.map_eq_some_iff.1 h
  exact ⟨name, rfl⟩

theorem byte?_some (h : byte? t = some o) : (∃ v, o = hex v) ∨ ∃ v, o = decimal v :=
  (Option.or_eq_some_iff.1 h).imp hexNumber?_some fun h ↦ decimalNumber?_some h.2

theorem hexOrLabel_some {least most : Nat}
    (h : (hexNumber? least most t).or (label? t) = some o) :
    (∃ v, o = hex v) ∨ ∃ name, o = label name :=
  (Option.or_eq_some_iff.1 h).imp hexNumber?_some fun h ↦ label?_some h.2

theorem suits_of_byte? {mode : AddressingMode} (hm : mode.operandSize = 1)
    (h : byte? t = some o) : o.Suits mode := by
  obtain ⟨v, rfl⟩ | ⟨v, rfl⟩ := byte?_some h
  · rintro rfl
    exact absurd hm (by decide)
  · exact hm

theorem suits_of_hexOrLabel {mode : AddressingMode} {least most : Nat}
    (hm : mode.operandSize = 2 ∨ mode = .relative)
    (h : (hexNumber? least most t).or (label? t) = some o) : o.Suits mode := by
  obtain ⟨v, rfl⟩ | ⟨name, rfl⟩ := hexOrLabel_some h
  · rintro rfl
    exact absurd hm (by decide)
  · exact hm

theorem suits_of_hexNumber? {mode : AddressingMode} {least most : Nat} (hm : mode ≠ .single)
    (h : hexNumber? least most t = some o) : o.Suits mode := by
  obtain ⟨v, rfl⟩ := hexNumber?_some h
  exact hm

theorem suits_of_constant? (h : constant? t = some o) : o.Suits .immediate := by
  unfold constant? at h
  split at h
  · obtain ⟨name, -, rfl⟩ := Option.map_eq_some_iff.1 h
    rfl
  · obtain ⟨name, -, rfl⟩ := Option.map_eq_some_iff.1 h
    rfl
  · exact suits_of_byte? rfl h

end Operand

open Operand

namespace AddressingMode

variable {mode : AddressingMode} {t : Text} {o : Operand}

theorem operand?_immediate_some (h : immediate.operand? t = some o) :
    ∃ u, t = '#' :: u ∧ constant? u = some o := by
  cases t with
  | nil => exact absurd h nofun
  | cons c u =>
    by_cases hc : c = '#'
    · subst hc
      exact ⟨u, rfl, h⟩
    · simp [operand?, hc] at h

theorem suits_of_operand? (h : mode.operand? t = some o) : o.Suits mode := by
  cases mode with
  | single =>
    simp only [operand?] at h
    split at h
    · cases h
      rfl
    · exact absurd h nofun
  | immediate =>
    obtain ⟨u, -, hu⟩ := operand?_immediate_some h
    exact suits_of_constant? hu
  | zeroPage => exact suits_of_byte? rfl h
  | zeroPageX | zeroPageY =>
    obtain ⟨u, -, hu⟩ := Option.bind_eq_some_iff.1 h
    exact suits_of_byte? rfl hu
  | absolute => exact suits_of_hexOrLabel (.inl rfl) h
  | absoluteX | absoluteY | indirect =>
    obtain ⟨u, -, hu⟩ := Option.bind_eq_some_iff.1 h
    exact suits_of_hexOrLabel (.inl rfl) hu
  | indirectX | indirectY =>
    obtain ⟨u, -, hu⟩ := Option.bind_eq_some_iff.1 h
    exact suits_of_hexNumber? nofun hu
  | relative => exact suits_of_hexOrLabel (.inr rfl) h

end AddressingMode

namespace Mnemonic

variable {m : Mnemonic} {text : Text} {r : Reading}

theorem reading?_eq_some_iff {mode : AddressingMode} :
    m.reading? text mode = some r ↔
      r.toInstruction = ⟨m, mode⟩ ∧ m.supports mode = true ∧
        mode.operand? text = some r.operand := by
  obtain ⟨i, o⟩ := r
  simp only [reading?, Option.ite_none_right_eq_some, Option.map_eq_some_iff, Reading.mk.injEq]
  constructor
  · intro h
    obtain ⟨hs, o, ho, rfl, rfl⟩ := h
    exact ⟨rfl, hs, ho⟩
  · intro h
    obtain ⟨rfl, hs, ho⟩ := h
    exact ⟨hs, o, ho, rfl, rfl⟩

theorem read?_some (h : m.read? text = some r) :
    r.mnemonic = m ∧ m.supports r.mode = true ∧ r.mode.operand? text = some r.operand := by
  obtain ⟨mode, -, hmode⟩ := List.exists_of_findSome?_eq_some h
  obtain ⟨hi, hs, ho⟩ := reading?_eq_some_iff.1 hmode
  rw [hi]
  exact ⟨rfl, hs, ho⟩

theorem suits_of_read? (h : m.read? text = some r) : r.operand.Suits r.mode :=
  AddressingMode.suits_of_operand? (read?_some h).2.2

theorem exists_opcode (h : m.read? text = some r) : ∃ opcode, m.opcode? r.mode = some opcode ∧
    Instruction.decode opcode = some r.toInstruction := by
  obtain ⟨hm, hs, -⟩ := read?_some h
  obtain ⟨opcode, ho⟩ := Option.isSome_iff_exists.1 hs
  refine ⟨opcode, ho, Instruction.decode_eq_some_iff.2 ?_⟩
  rw [hm]
  exact ho

end Mnemonic

namespace Literal

variable {v : Nat} {e : LineError}

theorem number_eq_ok {base : Nat} {ds : Text} (hplus : '+' ∉ ds)
    (h : Numeral.ofDigits? base ds = some v) : number base ds = .ok v := by
  have hdrop : Numeral.dropPlus ds = ds := by
    unfold Numeral.dropPlus
    split
    · exact absurd List.mem_cons_self hplus
    · rfl
  rw [number, hdrop, h]

theorem byte_toNat (b : UInt8) : byte b.toNat = .ok b := by
  have := b.toNat_lt
  rw [byte, if_pos (by omega), UInt8.ofNat_toNat]

theorem word_toNat (w : UInt16) : word w.toNat = .ok w := by
  have := w.toNat_lt
  rw [word, if_pos (by omega), UInt16.ofNat_toNat]

theorem byte_eq_error_iff : byte v = .error e ↔ 0xFF < v ∧ .valueOutOfRange v 0xFF = e := by
  unfold byte
  split
  · rename_i hv
    simp [Nat.not_lt.2 hv]
  · rename_i hv
    simp [Nat.lt_of_not_le hv]

theorem word_eq_error_iff : word v = .error e ↔ 0xFFFF < v ∧ .valueOutOfRange v 0xFFFF = e := by
  unfold word
  split
  · rename_i hv
    simp [Nat.not_lt.2 hv]
  · rename_i hv
    simp [Nat.lt_of_not_le hv]

end Literal

namespace Site

variable {site : Site} {mode : AddressingMode} {o : Operand} {bs : List UInt8}

theorem length_numberBytes {v : Nat} (hm : mode ≠ .single)
    (h : site.numberBytes mode v = .ok bs) : bs.length = mode.operandSize := by
  unfold numberBytes at h
  split at h
  · rename_i hr
    obtain ⟨target, -, h⟩ := Except.bind_eq_ok_iff.1 h
    obtain ⟨offset, -, h⟩ := Except.bind_eq_ok_iff.1 h
    cases h
    rw [hr]
    rfl
  · split at h
    · rename_i hs
      obtain ⟨w, -, rfl⟩ := Except.map_eq_ok_iff.1 h
      rw [hs]
      rfl
    · obtain ⟨b, -, rfl⟩ := Except.map_eq_ok_iff.1 h
      cases mode <;> first | rfl | contradiction

theorem length_operandBytes (ho : o.Suits mode) (h : site.operandBytes mode o = .ok bs) :
    bs.length = mode.operandSize := by
  cases o with
  | none =>
    cases h
    rw [show mode = .single from ho]
    rfl
  | hex ds =>
    obtain ⟨v, -, h⟩ := Except.bind_eq_ok_iff.1 h
    exact length_numberBytes ho h
  | decimal ds =>
    obtain ⟨v, -, h⟩ := Except.bind_eq_ok_iff.1 h
    obtain ⟨b, -, rfl⟩ := Except.map_eq_ok_iff.1 h
    exact (show mode.operandSize = 1 from ho).symm
  | label name =>
    obtain ⟨a, -, h⟩ := Except.bind_eq_ok_iff.1 h
    split at h
    · rename_i hr
      rw [hr]
      cases a with
      | none =>
        cases h
        rfl
      | some target =>
        obtain ⟨offset, -, rfl⟩ := Except.map_eq_ok_iff.1 h
        rfl
    · rename_i hr
      cases h
      exact ((show mode.operandSize = 2 ∨ mode = .relative from ho).resolve_right hr).symm
  | lowByte name | highByte name =>
    cases h
    rw [show mode = .immediate from ho]
    rfl

theorem encode_of_read? {m : Mnemonic} {text : Text} {r : Reading} {opcode : UInt8}
    (hr : m.read? text = some r) (ho : m.opcode? r.mode = some opcode) :
    site.encode m text = (site.operandBytes r.mode r.operand).map (opcode :: ·) := by
  simp only [encode, hr, ho]

theorem encode_eq_ok_iff {m : Mnemonic} {text : Text} :
    site.encode m text = .ok bs ↔ ∃ r opcode operand, m.read? text = some r ∧
      Instruction.decode opcode = some r.toInstruction ∧
      site.operandBytes r.mode r.operand = .ok operand ∧ opcode :: operand = bs := by
  cases hr : m.read? text with
  | none => simp [encode, hr]
  | some r =>
    obtain ⟨opcode, ho, hd⟩ := Mnemonic.exists_opcode hr
    have hopcode : ∀ x, Instruction.decode x = some r.toInstruction ↔ x = opcode :=
      fun x ↦ ⟨fun h ↦ Instruction.decode_inj h hd, fun h ↦ h ▸ hd⟩
    simp [encode_of_read? hr ho, Except.map_eq_ok_iff, hopcode]

theorem length_encode {m : Mnemonic} {text : Text} {r : Reading} (hr : m.read? text = some r)
    (h : site.encode m text = .ok bs) : bs.length = r.mode.instructionSize := by
  obtain ⟨r', opcode, operand, hr', -, hb, rfl⟩ := encode_eq_ok_iff.1 h
  obtain rfl : r = r' := Option.some.inj (hr.symm.trans hr')
  have hl := length_operandBytes (Mnemonic.suits_of_read? hr) hb
  simp only [List.length_cons, hl, AddressingMode.instructionSize, Nat.add_comm]

theorem branchOffset_of_reach {target : UInt16}
    (h : -128 ≤ site.displacement target ∧ site.displacement target ≤ 127) :
    site.branchOffset target = .ok (UInt8.ofInt (site.displacement target)) := if_pos h

theorem branchOffset_commit_eq_ok_iff {target : UInt16} {offset : UInt8}
    (hp : site.pass = .commit) : site.branchOffset target = .ok offset ↔
      (-128 ≤ site.displacement target ∧ site.displacement target ≤ 127) ∧
        offset = UInt8.ofInt (site.displacement target) := by
  constructor
  · intro h
    unfold branchOffset at h
    rw [hp] at h
    dsimp only at h
    split at h
    · rename_i hd
      exact ⟨hd, (Except.ok.inj h).symm⟩
    · cases h
  · rintro ⟨hd, rfl⟩
    exact branchOffset_of_reach hd

theorem branchOffset_eq_error_iff {target : UInt16} {e : LineError} :
    site.branchOffset target = .error e ↔ site.pass = .commit ∧
      ¬ (-128 ≤ site.displacement target ∧ site.displacement target ≤ 127) ∧
        .branchOutOfRange target = e := by
  unfold branchOffset
  dsimp only
  split
  · rename_i hd
    simp [hd]
  · rename_i hd
    cases site.pass with
    | index => simp
    | commit => simp [hd]

theorem resolve_eq_error_iff {name : Text} {e : LineError} : site.resolve name = .error e ↔
    site.symbols.address? name = Option.none ∧ site.pass = .commit ∧ .unresolvedLabel name = e := by
  unfold resolve
  cases site.symbols.address? name with
  | some a => simp
  | none =>
    cases site.pass with
    | index => simp
    | commit => simp

end Site

end Micro6502
