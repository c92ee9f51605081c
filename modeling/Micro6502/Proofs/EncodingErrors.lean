import Micro6502.Proofs.ModeChoice

namespace Micro6502

open Pattern

def Operand.Fits (size : Nat) : Operand → Prop
  | none => True
  | hex ds => HexDigits 1 (2 * size) ds
  | decimal ds => DecimalDigits ds
  | label name | lowByte name | highByte name => Word name

namespace Pattern

variable {t : Text} {o : Operand} {least size : Nat}

theorem fits_of_hex (hl : 1 ≤ least) (h : hex least (2 * size) t o) : o.Fits size := by
  obtain ⟨ds, hds, -, rfl⟩ := h
  exact ⟨hl.trans hds.least, hds.most, hds.digit⟩

theorem fits_of_byte (h : byte t o) : o.Fits 1 := by
  obtain h | ⟨hds, rfl⟩ := h
  · exact fits_of_hex le_rfl h
  · exact hds

theorem fits_of_address (hl : 1 ≤ least) (h : address least t o) : o.Fits 2 := by
  obtain h | ⟨hname, rfl⟩ := h
  · exact fits_of_hex hl h
  · exact hname

theorem fits_of_constant (h : constant t o) : o.Fits 1 := by
  obtain h | ⟨name, hname, ⟨-, rfl⟩ | ⟨-, rfl⟩⟩ := h
  · exact fits_of_byte h
  · exact hname
  · exact hname

end Pattern

namespace AddressingMode

variable {mode : AddressingMode} {t ds : Text} {o : Operand} {v : Nat}

/-- The number of bytes that a number of a mode may fill. A branch takes a whole address. -/
def numberSize (mode : AddressingMode) : Nat := if mode = relative then 2 else mode.operandSize

theorem fits_of_pattern (h : mode.pattern t o) : o.Fits mode.numberSize := by
  cases mode with
  | single =>
    obtain ⟨-, rfl⟩ := h
    trivial
  | immediate =>
    obtain ⟨u, hu, -⟩ := h
    exact fits_of_constant hu
  | zeroPage => exact fits_of_byte h
  | zeroPageX | zeroPageY =>
    obtain ⟨u, c, hu, -⟩ := h
    exact fits_of_byte hu
  | absolute => exact fits_of_address (by decide) h
  | absoluteX | absoluteY =>
    obtain ⟨u, c, hu, -⟩ := h
    exact fits_of_address (by decide) hu
  | indirectX =>
    obtain ⟨-, ⟨u, c, hu, -⟩, -⟩ := h
    exact fits_of_hex le_rfl hu
  | indirectY =>
    obtain ⟨-, c, ⟨u, hu, -⟩, -⟩ := h
    exact fits_of_hex le_rfl hu
  | relative => exact fits_of_address le_rfl h
  | indirect =>
    obtain ⟨u, hu, -⟩ := h
    exact fits_of_address le_rfl hu

theorem numberSize_le (mode : AddressingMode) : mode.numberSize ≤ 2 := by
  cases mode <;> decide

theorem exists_hex_value (h : mode.pattern t (.hex ds)) :
    ∃ v, Numeral.ofDigits? 16 ds = some v ∧ v < 256 ^ mode.numberSize := by
  have hds : HexDigits 1 (2 * mode.numberSize) ds := fits_of_pattern h
  have hsize := mode.numberSize_le
  refine ⟨_, hds.ofDigits? le_rfl (by omega), ?_⟩
  have hlt := hds.value_lt
  rwa [Nat.pow_mul] at hlt

theorem exists_decimal_value (h : mode.pattern t (.decimal ds)) :
    ∃ v, Numeral.ofDigits? 10 ds = some v ∧ v ≤ 999 := by
  have hds : DecimalDigits ds := fits_of_pattern h
  exact ⟨_, hds.ofDigits?, Nat.le_of_lt_succ hds.value_lt⟩

theorem number_hex (h : mode.pattern t (.hex ds)) (hv : Numeral.ofDigits? 16 ds = some v) :
    Literal.number 16 ds = .ok v := by
  have hds : HexDigits 1 (2 * mode.numberSize) ds := fits_of_pattern h
  exact Literal.number_eq_ok hds.plus_notMem hv

theorem number_decimal (h : mode.pattern t (.decimal ds))
    (hv : Numeral.ofDigits? 10 ds = some v) : Literal.number 10 ds = .ok v := by
  have hds : DecimalDigits ds := fits_of_pattern h
  exact Literal.number_eq_ok hds.plus_notMem hv

end AddressingMode

structure Mnemonic.Selects (m : Mnemonic) (t : Text) (mode : AddressingMode) (o : Operand) :
    Prop where
  chosen : m.mode? t = some mode
  taken : mode.pattern t o

/-- The address that an operand stands for: a number, or the address of a label that is known. -/
inductive SymbolTable.Locates (s : SymbolTable) : Operand → UInt16 → Prop where
  | hex (ds : Text) (a : UInt16) : Numeral.ofDigits? 16 ds = some a.toNat → Locates s (.hex ds) a
  | label (name : Text) (a : UInt16) : s.address? name = some a → Locates s (.label name) a

namespace Mnemonic

variable {m : Mnemonic} {t : Text} {mode : AddressingMode} {o : Operand}

theorem exists_selects (h : m.mode? t = some mode) : ∃ o, m.Selects t mode o := by
  obtain ⟨htakes, -⟩ := mode?_eq_some_iff.1 h
  obtain ⟨o, ho⟩ := htakes.mem
  exact ⟨o, h, ho⟩

theorem Selects.encode_eq (h : m.Selects t mode o) : ∃ opcode, m.opcode? mode = some opcode ∧
    ∀ site : Site, site.encode m t = (site.operandBytes mode o).map (opcode :: ·) := by
  obtain ⟨r, hr, rfl⟩ := Option.map_eq_some_iff.1 h.chosen
  obtain ⟨opcode, hopcode, -⟩ := exists_opcode hr
  have ho : r.mode.operand? t = some o := (r.mode.describes_pattern t o).2 h.taken
  obtain rfl : r.operand = o := Option.some.inj ((read?_some hr).2.2.symm.trans ho)
  exact ⟨opcode, hopcode, fun site ↦ Site.encode_of_read? hr hopcode⟩

theorem Selects.encode_eq_error_iff {site : Site} {e : LineError} (h : m.Selects t mode o) :
    site.encode m t = .error e ↔ site.operandBytes mode o = .error e := by
  obtain ⟨opcode, -, hencode⟩ := h.encode_eq
  rw [hencode, Except.map_eq_error_iff]

end Mnemonic

namespace Site

variable {site : Site} {m : Mnemonic} {t name ds : Text} {mode : AddressingMode} {o : Operand}
  {v : Nat} {target : UInt16} {e : LineError}

def Reaches (pc target : UInt16) : Prop :=
  -128 ≤ (target.toNat : Int) - (pc.toNat + 2) ∧ (target.toNat : Int) - (pc.toNat + 2) ≤ 127

/-- Why an instruction is not encoded: no mode takes its operand, a decimal number does not fit a
byte, or, in the commit pass, a label is not known or a branch does not reach its target. -/
inductive Refuses (site : Site) (m : Mnemonic) (t : Text) : LineError → Prop where
  | operand : m.mode? t = none → Refuses site m t (.invalidOperand m t)
  | value (mode : AddressingMode) (ds : Text) (v : Nat) : m.Selects t mode (.decimal ds) →
      Numeral.ofDigits? 10 ds = some v → 256 ≤ v → v ≤ 999 →
      Refuses site m t (.valueOutOfRange v 255)
  | label (mode : AddressingMode) (name : Text) : site.pass = .commit →
      m.Selects t mode (.label name) → site.symbols.address? name = none →
      Refuses site m t (.unresolvedLabel name)
  | branch (o : Operand) (target : UInt16) : site.pass = .commit → m.Selects t .relative o →
      site.symbols.Locates o target → ¬ Reaches site.pc target →
      Refuses site m t (.branchOutOfRange target)

theorem operandBytes_decimal_eq_error_iff (h : mode.pattern t (.decimal ds))
    (hv : Numeral.ofDigits? 10 ds = some v) : site.operandBytes mode (.decimal ds) = .error e ↔
      0xFF < v ∧ .valueOutOfRange v 0xFF = e := by
  rw [operandBytes, AddressingMode.number_decimal h hv]
  exact Except.map_eq_error_iff.trans Literal.byte_eq_error_iff

theorem numberBytes_ne_error (hr : mode ≠ .relative) (hv : v < 256 ^ mode.numberSize) :
    site.numberBytes mode v ≠ .error e := by
  have hsize := mode.numberSize_le
  simp only [AddressingMode.numberSize, if_neg hr] at hv hsize
  simp only [numberBytes, if_neg hr]
  split
  · rename_i hs
    rw [hs] at hv
    intro h
    have hlt := (Literal.word_eq_error_iff.1 (Except.map_eq_error_iff.1 h)).1
    omega
  · rename_i hs
    have hpow : 256 ^ mode.operandSize ≤ 256 ^ 1 := Nat.pow_le_pow_right (by decide) (by omega)
    intro h
    have hlt := (Literal.byte_eq_error_iff.1 (Except.map_eq_error_iff.1 h)).1
    omega

theorem operandBytes_hex_ne_error (hr : mode ≠ .relative) (h : mode.pattern t (.hex ds)) :
    site.operandBytes mode (.hex ds) ≠ .error e := by
  obtain ⟨v, hv, hlt⟩ := AddressingMode.exists_hex_value h
  rw [operandBytes, AddressingMode.number_hex h hv]
  exact numberBytes_ne_error hr hlt

theorem operandBytes_unknown_eq_error_iff (h : site.symbols.address? name = none) :
    site.operandBytes mode (.label name) = .error e ↔
      site.pass = .commit ∧ .unresolvedLabel name = e := by
  cases hp : site.pass with
  | index =>
    simp only [operandBytes, resolve, h, hp, Except.ok_bind, reduceCtorEq, false_and, iff_false]
    split
    · intro herror
      cases herror
    · intro herror
      cases herror
  | commit =>
    rw [operandBytes, resolve_eq_error_iff.2 ⟨h, hp, rfl⟩, and_iff_right rfl]
    exact ⟨Except.error.inj, congrArg _⟩

theorem operandBytes_known_ne_error (hr : mode ≠ .relative)
    (h : site.symbols.address? name = some target) :
    site.operandBytes mode (.label name) ≠ .error e := by
  simp only [operandBytes, resolve, h, Except.ok_bind, if_neg hr]
  intro herror
  cases herror

theorem operandBytes_relative (ho : AddressingMode.relative.pattern t o)
    (h : site.symbols.Locates o target) :
    site.operandBytes .relative o = (site.branchOffset target).map ([·]) := by
  cases h with
  | hex ds a hds =>
    rw [operandBytes, AddressingMode.number_hex ho hds, Except.ok_bind]
    simp only [numberBytes, if_pos, Literal.word_toNat, Except.ok_bind]
    cases site.branchOffset target with
    | error e => rfl
    | ok offset => rfl
  | label name a hname => simp only [operandBytes, resolve, hname, Except.ok_bind, if_pos]

theorem reaches_iff : Reaches site.pc target ↔
    -128 ≤ site.displacement target ∧ site.displacement target ≤ 127 := by
  rw [displacement, Int.natCast_add]
  rfl

theorem operandBytes_relative_eq_error_iff (ho : AddressingMode.relative.pattern t o)
    (h : site.symbols.Locates o target) : site.operandBytes .relative o = .error e ↔
      site.pass = .commit ∧ ¬ Reaches site.pc target ∧ .branchOutOfRange target = e := by
  rw [operandBytes_relative ho h, Except.map_eq_error_iff, branchOffset_eq_error_iff, reaches_iff]

theorem refuses_of_operandBytes (h : m.Selects t mode o)
    (herror : site.operandBytes mode o = .error e) : site.Refuses m t e := by
  have hbranch {target : UInt16} (hr : mode = .relative) (ho : site.symbols.Locates o target) :
      site.Refuses m t e := by
    subst hr
    obtain ⟨hp, hd, rfl⟩ := (operandBytes_relative_eq_error_iff h.taken ho).1 herror
    exact .branch o target hp h ho hd
  cases o with
  | none => cases herror
  | hex ds =>
    by_cases hr : mode = .relative
    · obtain ⟨v, hv, hlt⟩ := AddressingMode.exists_hex_value h.taken
      have hv' : v < 2 ^ 16 := by simpa [AddressingMode.numberSize, hr] using hlt
      refine hbranch hr (.hex ds (UInt16.ofNat v) ?_)
      rw [UInt16.toNat_ofNat_of_lt' hv', hv]
    · exact absurd herror (operandBytes_hex_ne_error hr h.taken)
  | decimal ds =>
    obtain ⟨v, hv, hle⟩ := AddressingMode.exists_decimal_value h.taken
    obtain ⟨hlt, rfl⟩ := (operandBytes_decimal_eq_error_iff h.taken hv).1 herror
    exact .value mode ds v h hv hlt hle
  | label name =>
    cases ha : site.symbols.address? name with
    | some target =>
      by_cases hr : mode = .relative
      · exact hbranch hr (.label name target ha)
      · exact absurd herror (operandBytes_known_ne_error hr ha)
    | none =>
      obtain ⟨hp, rfl⟩ := (operandBytes_unknown_eq_error_iff ha).1 herror
      exact .label mode name hp h ha
  | lowByte name | highByte name => cases herror

theorem encode_eq_error_iff : site.encode m t = .error e ↔ site.Refuses m t e := by
  constructor
  · intro h
    cases hm : m.mode? t with
    | none =>
      rw [encode, Option.map_eq_none_iff.1 hm] at h
      cases h
      exact .operand hm
    | some mode =>
      obtain ⟨o, ho⟩ := Mnemonic.exists_selects hm
      exact refuses_of_operandBytes ho (ho.encode_eq_error_iff.1 h)
  · intro h
    cases h with
    | operand hm => rw [encode, Option.map_eq_none_iff.1 hm]
    | value mode ds v ho hv hlt =>
      apply ho.encode_eq_error_iff.2
      exact (operandBytes_decimal_eq_error_iff ho.taken hv).2 ⟨hlt, rfl⟩
    | label mode name hp ho ha =>
      apply ho.encode_eq_error_iff.2
      exact (operandBytes_unknown_eq_error_iff ha).2 ⟨hp, rfl⟩
    | branch o target hp ho htarget hd =>
      apply ho.encode_eq_error_iff.2
      exact (operandBytes_relative_eq_error_iff ho.taken htarget).2 ⟨hp, hd, rfl⟩

theorem exists_encode_iff : (∃ bs, site.encode m t = .ok bs) ↔ ∀ e, ¬ site.Refuses m t e := by
  constructor
  · rintro ⟨bs, hbs⟩ e he
    rw [encode_eq_error_iff.2 he] at hbs
    cases hbs
  · intro h
    cases hencode : site.encode m t with
    | ok bs => exact ⟨bs, rfl⟩
    | error e => exact absurd (encode_eq_error_iff.1 hencode) (h e)

theorem Refuses.index (h : site.Refuses m t e) (hp : site.pass = .index) (site' : Site) :
    site'.Refuses m t e := by
  cases h with
  | operand hm => exact .operand hm
  | value mode ds v ho hv hlt hle => exact .value mode ds v ho hv hlt hle
  | label mode name hp' => cases hp.symm.trans hp'
  | branch o target hp' => cases hp.symm.trans hp'

theorem encode_index {pc pc' : UInt16} {s s' : SymbolTable} {bs : List UInt8}
    (h : (Site.mk pc .commit s).encode m t = .ok bs) :
    ∃ cs, (Site.mk pc' .index s').encode m t = .ok cs ∧ cs.length = bs.length := by
  obtain ⟨cs, hcs⟩ : ∃ cs, (Site.mk pc' .index s').encode m t = .ok cs :=
    exists_encode_iff.2 fun e he ↦ exists_encode_iff.1 ⟨bs, h⟩ e (he.index rfl _)
  obtain ⟨r, -, -, hr, -⟩ := encode_eq_ok_iff.1 h
  exact ⟨cs, hcs, (length_encode hr hcs).trans (length_encode hr h).symm⟩

theorem map_length_encode_index (pc pc' : UInt16) (s s' : SymbolTable) :
    ((Site.mk pc .index s).encode m t).map List.length =
      ((Site.mk pc' .index s').encode m t).map List.length := by
  cases h : (Site.mk pc .index s).encode m t with
  | error e =>
    have hrefuses := (encode_eq_error_iff.1 h).index rfl ⟨pc', .index, s'⟩
    rw [encode_eq_error_iff.2 hrefuses]
  | ok bs =>
    cases h' : (Site.mk pc' .index s').encode m t with
    | error e =>
      have hrefuses := (encode_eq_error_iff.1 h').index rfl ⟨pc, .index, s⟩
      rw [encode_eq_error_iff.2 hrefuses] at h
      cases h
    | ok bs' =>
      obtain ⟨r, -, -, hr, -⟩ := encode_eq_ok_iff.1 h
      rw [Except.map_ok, Except.map_ok, length_encode hr h, length_encode hr h']

end Site

/-- When an instruction is encoded. A mode that is selected has an opcode, the digits of its operand
are always read, and a hexadecimal number always fits, so that no other reason remains. -/
structure Mnemonic.Encodes (m : Mnemonic) (t : Text) : Prop where
  error_iff : ∀ (site : Site) (e : LineError), site.encode m t = .error e ↔ site.Refuses m t e
  never : ∀ (site : Site) (ds : Text), site.encode m t ≠ .error .malformed ∧
    site.encode m t ≠ .error (.invalidNumber ds)
  ok_iff : ∀ site : Site, (∃ bs, site.encode m t = .ok bs) ↔ ∀ e, ¬ site.Refuses m t e
  opcode : ∀ mode, m.mode? t = some mode → ∃ opcode, m.opcode? mode = some opcode
  hex : ∀ mode ds, m.Selects t mode (.hex ds) → ∃ v, Numeral.ofDigits? 16 ds = some v ∧
    v ≤ 0xFFFF ∧ (mode.operandSize = 1 → mode ≠ .relative → v ≤ 0xFF)
  decimal : ∀ mode ds, m.Selects t mode (.decimal ds) →
    ∃ v, Numeral.ofDigits? 10 ds = some v ∧ v ≤ 999
  index : ∀ (pc pc' : UInt16) (s s' : SymbolTable),
    ((Site.mk pc .index s).encode m t).map List.length =
      ((Site.mk pc' .index s').encode m t).map List.length

/-- An instruction is refused for the four reasons alone, and in the index pass wherever it
stands. -/
theorem Mnemonic.encodes_unless_refused (m : Mnemonic) (t : Text) : m.Encodes t := by
  constructor
  case error_iff => exact fun _ _ ↦ Site.encode_eq_error_iff
  case never =>
    intro site ds
    simp only [ne_eq, Site.encode_eq_error_iff]
    constructor
    · intro h
      cases h
    · intro h
      cases h
  case ok_iff => exact fun _ ↦ Site.exists_encode_iff
  case opcode =>
    intro mode hm
    obtain ⟨o, ho⟩ := exists_selects hm
    obtain ⟨opcode, hopcode, -⟩ := ho.encode_eq
    exact ⟨opcode, hopcode⟩
  case hex =>
    intro mode ds ho
    obtain ⟨v, hv, hlt⟩ := AddressingMode.exists_hex_value ho.taken
    refine ⟨v, hv, ?_, fun hsize hr ↦ ?_⟩
    · have hpow : 256 ^ mode.numberSize ≤ 256 ^ 2 :=
        Nat.pow_le_pow_right (by decide) mode.numberSize_le
      omega
    · rw [AddressingMode.numberSize, if_neg hr, hsize] at hlt
      omega
  case decimal => exact fun _ _ ho ↦ AddressingMode.exists_decimal_value ho.taken
  case index => exact fun _ _ _ _ ↦ Site.map_length_encode_index _ _ _ _

end Micro6502
