import Micro6502.Proofs.DumpText

namespace Micro6502

namespace HexRow

variable {r : HexRow} {bytes : List UInt8} {rest : Text}

def readCells : Text → List UInt8
  | c :: d :: rest =>
    if Numeral.isHexDigit c then
      UInt8.ofNat (Numeral.value 16 [c, d]) ::
        match rest with
        | _ :: rest => readCells rest
        | [] => []
    else []
  | _ => []

/-- The row that a line was written for, with the characters or without them. -/
def read (line : Text) : HexRow :=
  ⟨UInt16.ofNat (Numeral.value 16 (line.take 4)), readCells (line.drop 6)⟩

theorem ofNat_value_byte (b : UInt8) : UInt8.ofNat (Numeral.value 16 (Hexadecimal.byte b)) = b := by
  rw [Hexadecimal.value_byte, UInt8.ofNat_toNat]

theorem readCells_blank (rest : Text) : readCells (' ' :: rest) = [] := by
  have hblank : Numeral.isHexDigit ' ' = false := by decide
  rcases rest with _ | ⟨d, _ | ⟨e, rest⟩⟩ <;> simp [readCells, hblank]

theorem readCells_byte (b : UInt8) : readCells (Hexadecimal.byte b) = [b] :=
  calc readCells (Hexadecimal.byte b)
      = [UInt8.ofNat (Numeral.value 16 (Hexadecimal.byte b))] :=
        if_pos (Hexadecimal.isHexDigit_byte b _ List.mem_cons_self)
    _ = [b] := by rw [ofNat_value_byte]

theorem readCells_byte_append (b : UInt8) (rest : Text) :
    readCells (Hexadecimal.byte b ++ ' ' :: rest) = b :: readCells rest :=
  calc readCells (Hexadecimal.byte b ++ ' ' :: rest)
      = UInt8.ofNat (Numeral.value 16 (Hexadecimal.byte b)) :: readCells rest :=
        if_pos (Hexadecimal.isHexDigit_byte b _ List.mem_cons_self)
    _ = b :: readCells rest := by rw [ofNat_value_byte]

theorem readCells_cells (h : rest = [] ∨ ∃ t, rest = ' ' :: ' ' :: t) :
    readCells (cells bytes ++ rest) = bytes := by
  induction bytes with
  | nil =>
    obtain rfl | ⟨t, rfl⟩ := h
    · rfl
    · exact readCells_blank _
  | cons b bytes ih =>
    obtain rfl | hne := eq_or_ne bytes []
    · obtain rfl | ⟨t, rfl⟩ := h
      · exact readCells_byte b
      · exact (readCells_byte_append b _).trans (congrArg _ (readCells_blank t))
    · rw [cells_cons b bytes hne, List.append_assoc, List.cons_append, readCells_byte_append, ih]

theorem read_format (r : HexRow) (ascii : Bool) : read (r.format ascii) = r := by
  have haddress : UInt16.ofNat (Numeral.value 16 ((r.format ascii).take 4)) = r.address := by
    rw [take_format, Hexadecimal.value_word, UInt16.ofNat_toNat]
  have hmargin : r.margin ascii = [] ∨ ∃ t, r.margin ascii = ' ' :: ' ' :: t := by
    cases ascii with
    | false => exact .inl rfl
    | true => exact .inr ⟨_, margin_true r⟩
  have hbytes : readCells ((r.format ascii).drop 6) = r.bytes := by
    have hdrop := drop_format r ascii 0
    rw [List.drop_zero] at hdrop
    rw [hdrop, readCells_cells hmargin]
  rw [read, haddress, hbytes]

example : read "0600: A9 01 85 00 A5 00 00".toList =
    ⟨0x0600, [0xA9, 0x01, 0x85, 0x00, 0xA5, 0x00, 0x00]⟩ := by decide +kernel

theorem length_cells (hne : bytes ≠ []) : (cells bytes).length = 3 * bytes.length - 1 := by
  induction bytes with
  | nil => exact absurd rfl hne
  | cons b bytes ih =>
    obtain rfl | hbytes := eq_or_ne bytes []
    · rfl
    · have hpos := List.length_pos_iff.2 hbytes
      have hbyte : (Hexadecimal.byte b).length = 2 := rfl
      rw [cells_cons b bytes hbytes, List.length_append, List.length_cons, List.length_cons,
        ih hbytes, hbyte]
      omega

/-- However many bytes a row has, its characters stand between two bars, the first of which is at
place 55. -/
theorem format_true_eq (hne : r.bytes ≠ []) (hlength : r.bytes.length ≤ width) :
    ∃ before : Text, r.format true = before ++ '|' :: (r.ascii ++ ['|']) ∧ before.length = 55 ∧
      '|' ∉ before := by
  refine ⟨Hexadecimal.word r.address ++ ([':', ' '] ++ (cells r.bytes ++
    List.replicate ((width - r.bytes.length) * 3 + 2) ' ')), ?_, ?_, ?_⟩
  · simp [format_eq, margin_true]
  · have hpos := List.length_pos_iff.2 hne
    simp only [List.length_append, Hexadecimal.length_word, length_cells hne, List.length_replicate,
      List.length_cons, List.length_nil]
    rw [width] at hlength ⊢
    omega
  · have hbar : Numeral.isHexDigit '|' = false := by decide
    simp only [List.mem_append, List.mem_cons, List.mem_replicate, List.not_mem_nil, or_false]
    rintro (h | (h | h) | h | ⟨-, h⟩)
    · exact Bool.false_ne_true (hbar.symm.trans (Hexadecimal.isHexDigit_word r.address '|' h))
    · exact absurd h (by decide)
    · exact absurd h (by decide)
    · obtain h | h := isHexDigit_or_blank_of_mem_cells h
      · exact Bool.false_ne_true (hbar.symm.trans h)
      · exact absurd h (by decide)
    · exact absurd h (by decide)

end HexRow

namespace Memory

variable {m m' : Memory} {start start' : UInt16} {len len' : Nat} {r : HexRow}

def extent (start : UInt16) (len : Nat) : Nat := min len (0x10000 - start.toNat)

theorem extent_pos (start : UInt16) (h : 0 < len) : 0 < extent start len := by
  have := start.toNat_lt
  unfold extent
  omega

theorem length_rows (m : Memory) (start : UInt16) (len : Nat) :
    (m.rows start len).length = (extent start len + 15) / 16 := by
  rw [rows, HexRow.length_ofBytes, length_bytesFrom, extent]

theorem flatMap_rows (m : Memory) (start : UInt16) (len : Nat) :
    (m.rows start len).flatMap (·.bytes) =
      (List.range (extent start len)).map fun n ↦ m.peek (UInt16.ofNat (start.toNat + n)) := by
  rw [rows, HexRow.flatMap_ofBytes, bytesFrom, List.range'_eq_map_range, List.map_map]
  rfl

theorem bytesFrom_congr (h : ∀ n < extent start len,
    m.peek (UInt16.ofNat (start.toNat + n)) = m'.peek (UInt16.ofNat (start.toNat + n))) :
    m.bytesFrom start len = m'.bytesFrom start len := by
  rw [bytesFrom, bytesFrom, List.range'_eq_map_range, List.map_map, List.map_map]
  exact List.map_congr_left fun n hn ↦ h n (List.mem_range.1 hn)

theorem rows_inj (hlen : 0 < len) (h : m.rows start len = m'.rows start' len') :
    start = start' ∧ extent start len = extent start' len' ∧ ∀ n < extent start len,
      m.peek (UInt16.ofNat (start.toNat + n)) = m'.peek (UInt16.ofNat (start.toNat + n)) := by
  have hbytes := (flatMap_rows m start len).symm.trans
    ((congrArg (List.flatMap (·.bytes)) h).trans (flatMap_rows m' start' len'))
  have hextent : extent start len = extent start' len' := by
    simpa using congrArg List.length hbytes
  have hstart : start = start' := by
    have hpos := extent_pos start hlen
    have hlength := length_rows m start len
    obtain ⟨r, hr⟩ : ∃ r, (m.rows start len)[0]? = some r :=
      ⟨_, List.getElem?_eq_getElem (by omega)⟩
    have hr' := h ▸ hr
    rw [← UInt16.toNat_inj, ← Nat.add_zero start.toNat, ← Nat.add_zero start'.toNat]
    exact (getElem?_rows.1 hr).2.1.symm.trans (getElem?_rows.1 hr').2.1
  subst hstart
  refine ⟨rfl, hextent, fun n hn ↦ ?_⟩
  rw [← hextent] at hbytes
  exact List.map_inj_left.1 hbytes n (List.mem_range.2 hn)

theorem read_hexDump (m : Memory) (start : UInt16) (len : Nat) (ascii : Bool) :
    (Text.lines (m.hexDump start len ascii)).map HexRow.read = m.rows start len := by
  rw [lines_hexDump, List.map_map]
  exact List.map_id'' (HexRow.read_format · ascii) _

theorem bytes_of_getElem?_rows {i : Nat} (h : (m.rows start len)[i]? = some r)
    (hi : i + 1 < (m.rows start len).length) : r.bytes.length = 16 := by
  obtain ⟨-, -, hbytes⟩ := getElem?_rows.1 h
  rw [length_rows, extent] at hi
  rw [hbytes, List.length_take, List.length_drop, length_bytesFrom]
  omega

/-- What a listing of a range consists of and tells. -/
structure ListsRange (m : Memory) (start : UInt16) (len : Nat) : Prop where
  count : (m.rows start len).length = (extent start len + 15) / 16
  address (i : Nat) (r : HexRow) (h : (m.rows start len)[i]? = some r) :
    r.address.toNat = start.toNat + 16 * i
  full (i : Nat) (r : HexRow) (h : (m.rows start len)[i]? = some r)
    (hi : i + 1 < (m.rows start len).length) : r.bytes.length = 16
  last (r : HexRow) (h : r ∈ m.rows start len) : 1 ≤ r.bytes.length ∧ r.bytes.length ≤ 16
  bytes : (m.rows start len).flatMap (·.bytes) =
    (List.range (extent start len)).map fun n ↦ m.peek (UInt16.ofNat (start.toNat + n))
  /-- Only the stored bytes of the range matter, and no hook. -/
  stored (m' : Memory) (h : ∀ n < extent start len,
      m.peek (UInt16.ofNat (start.toNat + n)) = m'.peek (UInt16.ofNat (start.toNat + n))) :
    m'.rows start len = m.rows start len
  unasked (range : AddressRange) (reader : Reader) (ascii : Bool) :
    (m.hookReads range reader).hexDump start len ascii = m.hexDump start len ascii
  lines (ascii : Bool) :
    Text.lines (m.hexDump start len ascii) = (m.rows start len).map (·.format ascii)
  printable (r : HexRow) (h : r ∈ m.rows start len) (ascii : Bool) (c : Char)
    (hc : c ∈ r.format ascii) : 0x20 ≤ c.toNat ∧ c.toNat < 0x7F
  read (ascii : Bool) :
    (Text.lines (m.hexDump start len ascii)).map HexRow.read = m.rows start len
  bar (r : HexRow) (h : r ∈ m.rows start len) : ∃ before : Text,
    r.format true = before ++ '|' :: (r.ascii ++ ['|']) ∧ before.length = 55 ∧ '|' ∉ before
  inj (m' : Memory) (start' : UInt16) (len' : Nat) (ascii ascii' : Bool) (hlen : 0 < len)
    (h : m.hexDump start len ascii = m'.hexDump start' len' ascii') :
    start = start' ∧ extent start len = extent start' len' ∧ ∀ n < extent start len,
      m.peek (UInt16.ofNat (start.toNat + n)) = m'.peek (UInt16.ofNat (start.toNat + n))

theorem lists_range (m : Memory) (start : UInt16) (len : Nat) : m.ListsRange start len where
  count := length_rows m start len
  address _ _ h := (getElem?_rows.1 h).2.1
  full _ _ h hi := bytes_of_getElem?_rows h hi
  last _ h := ⟨List.length_pos_iff.2 (bytes_of_mem_rows h).1, (bytes_of_mem_rows h).2⟩
  bytes := flatMap_rows m start len
  stored m' h := congrArg (HexRow.ofBytes start) (bytesFrom_congr h).symm
  unasked range reader ascii := by
    unfold hookReads
    split <;> rfl
  lines _ := lines_hexDump
  printable _ _ _ _ hc := HexRow.printable_of_mem_format hc
  read := read_hexDump m start len
  bar _ h := HexRow.format_true_eq (bytes_of_mem_rows h).1 (bytes_of_mem_rows h).2
  inj m' start' len' ascii ascii' hlen h := by
    refine rows_inj hlen ?_
    rw [← read_hexDump m start len ascii, h, read_hexDump]

end Memory

end Micro6502
