import Mathlib.Data.List.Range
import Micro6502.HexDump
import Micro6502.Proofs.Numeral

namespace Micro6502

namespace Hexadecimal

theorem byte_inj {u v : UInt8} : byte u = byte v ↔ u = v := by
  refine ⟨fun h ↦ ?_, congrArg byte⟩
  rw [← UInt8.toNat_inj, ← value_byte, ← value_byte, h]

theorem word_inj {u v : UInt16} : word u = word v ↔ u = v := by
  refine ⟨fun h ↦ ?_, congrArg word⟩
  rw [← UInt16.toNat_inj, ← value_word, ← value_word, h]

end Hexadecimal

/-- A text shows a byte at an address: a line of it begins with an address, and the byte stands in
the columns of one of the sixteen places from that address on. -/
def Shows (dump : Text) (a : UInt16) (v : UInt8) : Prop :=
  ∃ line ∈ dump.lines, ∃ (start : UInt16) (place : Nat), place < 16 ∧
    line.take 4 = Hexadecimal.word start ∧ a.toNat = start.toNat + place ∧
    (line.drop (6 + 3 * place)).take 2 = Hexadecimal.byte v

namespace HexRow

variable {r : HexRow} {bytes : List UInt8} {start a : UInt16} {v b : UInt8} {rest : List Char}
  {place : Nat} {ascii : Bool}

def cells (bytes : List UInt8) : List Char := [' '].intercalate (bytes.map Hexadecimal.byte)

theorem cells_cons (b : UInt8) (bytes : List UInt8) (hne : bytes ≠ []) :
    cells (b :: bytes) = Hexadecimal.byte b ++ ' ' :: cells bytes := by
  obtain ⟨c, bytes, rfl⟩ := List.exists_cons_of_ne_nil hne
  exact List.intercalate_cons_cons

theorem drop_cells_cons (b : UInt8) (bytes : List UInt8) (hne : bytes ≠ []) (n : Nat) :
    (cells (b :: bytes) ++ rest).drop (3 * (n + 1)) = (cells bytes ++ rest).drop (3 * n) := by
  rw [cells_cons b bytes hne]
  rfl

theorem take_drop_cells (h : bytes[place]? = some b) :
    ((cells bytes ++ rest).drop (3 * place)).take 2 = Hexadecimal.byte b := by
  induction bytes generalizing place with
  | nil => cases h
  | cons c bytes ih =>
    cases place with
    | zero =>
      cases h
      obtain rfl | hne := eq_or_ne bytes []
      · rfl
      · rw [cells_cons b bytes hne]
        rfl
    | succ place =>
      have hbytes : bytes ≠ [] := by
        rintro rfl
        cases h
      rw [drop_cells_cons c bytes hbytes]
      exact ih h

theorem drop_cells (hne : bytes ≠ []) (h : bytes.length ≤ place) :
    (cells bytes ++ rest).drop (3 * place) = rest.drop (3 * (place - bytes.length) + 1) := by
  induction bytes generalizing place with
  | nil => exact absurd rfl hne
  | cons c bytes ih =>
    rw [List.length_cons] at h ⊢
    obtain ⟨place, rfl⟩ : ∃ n, place = n + 1 := ⟨place - 1, by omega⟩
    obtain rfl | hbytes := eq_or_ne bytes []
    · rfl
    · rw [drop_cells_cons c bytes hbytes, ih hbytes (by omega), Nat.add_sub_add_right]

def margin (r : HexRow) (ascii : Bool) : List Char :=
  if ascii then
    List.replicate ((width - r.bytes.length) * 3) ' ' ++ [' ', ' ', '|'] ++ r.ascii ++ ['|']
  else []

theorem margin_true (r : HexRow) : r.margin true =
    List.replicate ((width - r.bytes.length) * 3 + 2) ' ' ++ '|' :: (r.ascii ++ ['|']) := by
  simp [margin, List.replicate_add]

theorem format_eq (r : HexRow) (ascii : Bool) : r.format ascii =
    Hexadecimal.word r.address ++ ([':', ' '] ++ (cells r.bytes ++ r.margin ascii)) := by
  unfold format margin
  cases ascii with
  | true => simp [cells]
  | false => simp [cells]

theorem take_format (r : HexRow) (ascii : Bool) :
    (r.format ascii).take 4 = Hexadecimal.word r.address := by
  rw [format_eq]
  rfl

theorem drop_format (r : HexRow) (ascii : Bool) (n : Nat) :
    (r.format ascii).drop (6 + n) = (cells r.bytes ++ r.margin ascii).drop n := by
  rw [format_eq, ← List.drop_drop]
  rfl

/-- No digit stands in the columns of the places that a short row leaves free. -/
theorem take_drop_margin (n : Nat) (h : n + r.bytes.length < width) :
    ((r.margin ascii).drop (3 * n + 1)).take 2 ≠ Hexadecimal.byte v := by
  have hdigit : ∀ d : Char, d ∈ Hexadecimal.byte v → d ≠ ' ' := by
    rintro d hd rfl
    exact absurd (Hexadecimal.isHexDigit_byte v ' ' hd) (by decide)
  cases ascii with
  | false =>
    have hnil : r.margin false = [] := rfl
    rw [hnil, List.drop_nil, List.take_nil]
    exact nofun
  | true =>
    -- The first of the two columns is a blank of the filling, and no digit is.
    obtain ⟨k, hk⟩ : ∃ k, (width - r.bytes.length) * 3 + 2 = (3 * n + 1) + (k + 1) :=
      ⟨(width - r.bytes.length) * 3 - 3 * n, by simp only [width] at h ⊢; omega⟩
    rw [margin_true, hk, List.replicate_add, List.append_assoc,
      List.drop_left' (List.length_replicate ..), List.replicate_succ, List.cons_append,
      List.take_succ_cons]
    intro heq
    exact hdigit ' ' (heq ▸ List.mem_cons_self) rfl

theorem shows_format_iff (hne : r.bytes ≠ []) (hp : place < width) :
    ((r.format ascii).drop (6 + 3 * place)).take 2 = Hexadecimal.byte v ↔
      r.bytes[place]? = some v := by
  rw [drop_format]
  by_cases hlt : place < r.bytes.length
  · have hget := List.getElem?_eq_getElem hlt
    rw [take_drop_cells hget, hget, Hexadecimal.byte_inj, Option.some.injEq]
  · rw [drop_cells hne (Nat.le_of_not_lt hlt), List.getElem?_eq_none (Nat.le_of_not_lt hlt)]
    exact iff_of_false (take_drop_margin _ (by omega)) nofun

theorem printable_of_isHexDigit {c : Char} (h : Numeral.isHexDigit c = true) :
    0x20 ≤ c.toNat ∧ c.toNat < 0x7F := by
  have hrange := Text.toNat_of_isWordChar (Numeral.isWordChar_of_isHexDigit h)
  omega

theorem isHexDigit_or_blank_of_mem_cells {c : Char} (h : c ∈ cells bytes) :
    Numeral.isHexDigit c = true ∨ c = ' ' := by
  induction bytes with
  | nil => cases h
  | cons b bytes ih =>
    obtain rfl | hne := eq_or_ne bytes []
    · exact .inl (Hexadecimal.isHexDigit_byte b c h)
    · rw [cells_cons b bytes hne, List.mem_append, List.mem_cons] at h
      obtain h | h | h := h
      · exact .inl (Hexadecimal.isHexDigit_byte b c h)
      · exact .inr h
      · exact ih h

theorem printable_asciiChar (b : UInt8) :
    0x20 ≤ (asciiChar b).toNat ∧ (asciiChar b).toNat < 0x7F := by
  unfold asciiChar
  split
  · rename_i h
    rw [Bool.and_eq_true, decide_eq_true_iff, decide_eq_true_iff] at h
    exact ⟨UInt8.le_iff_toNat_le.1 h.1, UInt8.lt_iff_toNat_lt.1 h.2⟩
  · decide

theorem printable_of_mem_margin {c : Char} (h : c ∈ r.margin ascii) :
    0x20 ≤ c.toNat ∧ c.toNat < 0x7F := by
  cases ascii with
  | false => cases h
  | true =>
    simp only [margin_true, List.mem_append, List.mem_replicate, List.mem_cons, List.not_mem_nil,
      or_false, HexRow.ascii, List.mem_map] at h
    obtain ⟨-, rfl⟩ | rfl | ⟨b, -, rfl⟩ | rfl := h
    · decide
    · decide
    · exact printable_asciiChar b
    · decide

theorem printable_of_mem_format {c : Char} (h : c ∈ r.format ascii) :
    0x20 ≤ c.toNat ∧ c.toNat < 0x7F := by
  simp only [format_eq, List.mem_append, List.mem_cons, List.not_mem_nil, or_false] at h
  obtain h | (rfl | rfl) | h | h := h
  · exact printable_of_isHexDigit (Hexadecimal.isHexDigit_word r.address c h)
  · decide
  · decide
  · obtain hdigit | rfl := isHexDigit_or_blank_of_mem_cells h
    · exact printable_of_isHexDigit hdigit
    · decide
  · exact printable_of_mem_margin h

theorem format_ne_nil (r : HexRow) (ascii : Bool) : r.format ascii ≠ [] := by
  rw [format_eq]
  exact List.cons_ne_nil _ _

theorem ofBytes_eq (start : UInt16) (bytes : List UInt8) : ofBytes start bytes =
    (List.range ((bytes.length + 15) / 16)).map fun i ↦
      ⟨start + UInt16.ofNat (16 * i), (bytes.drop (16 * i)).take 16⟩ := by
  induction start, bytes using ofBytes.induct with
  | case1 start => rw [ofBytes]; rfl
  | case2 start b bs ih =>
    have hlength :
        ((b :: bs).length + 15) / 16 = (((b :: bs).drop width).length + 15) / 16 + 1 := by
      rw [List.length_drop, List.length_cons, width]
      omega
    rw [ofBytes, ih, hlength, List.range_succ_eq_map, List.map_cons, List.map_map]
    congr 1
    · exact congrArg (HexRow.mk · _) (UInt16.add_zero start).symm
    · refine List.map_congr_left fun i _ ↦ ?_
      have haddress : start + UInt16.ofNat width + UInt16.ofNat (16 * i) =
          start + UInt16.ofNat (16 * (i + 1)) := by
        rw [Nat.mul_succ, Nat.add_comm, UInt16.ofNat_add, ← UInt16.add_assoc]
        rfl
      have hbytes : ((b :: bs).drop width).drop (16 * i) = (b :: bs).drop (16 * (i + 1)) := by
        rw [List.drop_drop, Nat.mul_succ, Nat.add_comm, width]
      rw [haddress, hbytes]
      rfl

theorem length_ofBytes (start : UInt16) (bytes : List UInt8) :
    (ofBytes start bytes).length = (bytes.length + 15) / 16 := by
  simp [ofBytes_eq]

/-- Each row has an address of its own, and holds sixteen bytes or the last ones. -/
theorem getElem?_ofBytes (h : start.toNat + bytes.length ≤ 0x10000) {i : Nat} :
    (ofBytes start bytes)[i]? = some r ↔ 16 * i < bytes.length ∧
      r.address.toNat = start.toNat + 16 * i ∧ r.bytes = (bytes.drop (16 * i)).take 16 := by
  obtain ⟨address, bs⟩ := r
  rw [ofBytes_eq, List.getElem?_map]
  by_cases hi : i < (bytes.length + 15) / 16
  · have haddress : (start + UInt16.ofNat (16 * i)).toNat = start.toNat + 16 * i := by
      rw [UInt16.toNat_add, UInt16.toNat_ofNat']
      omega
    have hlt : 16 * i < bytes.length := by omega
    simp only [List.getElem?_range hi, Option.map_some, Option.some.injEq, HexRow.mk.injEq,
      ← UInt16.toNat_inj, haddress, hlt, true_and]
    exact and_congr eq_comm eq_comm
  · have hlt : ¬ 16 * i < bytes.length := by omega
    rw [List.getElem?_eq_none (by simpa using Nat.le_of_not_lt hi)]
    exact iff_of_false nofun fun h ↦ hlt h.1

theorem flatMap_ofBytes (start : UInt16) (bytes : List UInt8) :
    (ofBytes start bytes).flatMap (·.bytes) = bytes := by
  induction start, bytes using ofBytes.induct with
  | case1 start => rw [ofBytes, List.flatMap_nil]
  | case2 start b bs ih => rw [ofBytes, List.flatMap_cons, ih, List.take_append_drop]

end HexRow

namespace Memory

variable {m : Memory} {start a : UInt16} {len : Nat} {ascii : Bool} {v : UInt8} {r : HexRow}

theorem length_bytesFrom (m : Memory) (start : UInt16) (len : Nat) :
    (m.bytesFrom start len).length = min len (0x10000 - start.toNat) := by
  rw [bytesFrom, List.length_map, List.length_range']

theorem getElem?_bytesFrom {n : Nat} : (m.bytesFrom start len)[n]? = some v ↔
    n < min len (0x10000 - start.toNat) ∧ m.peek (UInt16.ofNat (start.toNat + n)) = v := by
  rw [bytesFrom, List.getElem?_map]
  by_cases hn : n < min len (0x10000 - start.toNat)
  · rw [List.getElem?_range' hn, Nat.one_mul]
    simp [hn]
  · have hnone : (List.range' start.toNat (min len (0x10000 - start.toNat)))[n]? = none :=
      List.getElem?_eq_none (by rw [List.length_range']; exact Nat.le_of_not_lt hn)
    rw [hnone]
    exact ⟨nofun, fun h ↦ absurd h.1 hn⟩

theorem getElem?_rows {i : Nat} : (m.rows start len)[i]? = some r ↔
    16 * i < (m.bytesFrom start len).length ∧ r.address.toNat = start.toNat + 16 * i ∧
      r.bytes = ((m.bytesFrom start len).drop (16 * i)).take 16 := by
  have hstart := start.toNat_lt
  exact HexRow.getElem?_ofBytes (by rw [length_bytesFrom]; omega)

theorem mem_rows_iff : r ∈ m.rows start len ↔ ∃ i, 16 * i < (m.bytesFrom start len).length ∧
    r.address.toNat = start.toNat + 16 * i ∧
      r.bytes = ((m.bytesFrom start len).drop (16 * i)).take 16 :=
  List.mem_iff_getElem?.trans (exists_congr fun _ ↦ getElem?_rows)

theorem bytes_of_mem_rows (h : r ∈ m.rows start len) :
    r.bytes ≠ [] ∧ r.bytes.length ≤ HexRow.width := by
  obtain ⟨i, hi, -, hb⟩ := mem_rows_iff.1 h
  rw [← List.length_pos_iff, hb, List.length_take, List.length_drop, HexRow.width]
  omega

theorem lines_hexDump : Text.lines (m.hexDump start len ascii) =
    (m.rows start len).map (·.format ascii) := by
  -- A line holds printable characters only, so that nothing in it ends it.
  refine Text.lines_intercalate fun l hl ↦ ?_
  obtain ⟨r, -, rfl⟩ := List.mem_map.1 hl
  refine ⟨HexRow.format_ne_nil r ascii, fun c hc ↦ ?_⟩
  have hprintable := (HexRow.printable_of_mem_format hc).1
  constructor
  · rintro rfl
    exact absurd hprintable (by decide)
  · rintro rfl
    exact absurd hprintable (by decide)

theorem shows_hexDump_iff_row : Shows (m.hexDump start len ascii) a v ↔
    ∃ r ∈ m.rows start len, ∃ place, a.toNat = r.address.toNat + place ∧
      r.bytes[place]? = some v := by
  unfold Shows
  rw [lines_hexDump]
  constructor
  · rintro ⟨line, hline, first, place, hp, hfirst, ha, hv⟩
    obtain ⟨r, hr, rfl⟩ := List.mem_map.1 hline
    rw [HexRow.take_format, Hexadecimal.word_inj] at hfirst
    obtain rfl := hfirst
    exact ⟨r, hr, place, ha, (HexRow.shows_format_iff (bytes_of_mem_rows hr).1 hp).1 hv⟩
  · rintro ⟨r, hr, place, ha, hv⟩
    obtain ⟨hne, hlength⟩ := bytes_of_mem_rows hr
    have hp : place < HexRow.width :=
      Nat.lt_of_lt_of_le (List.getElem?_eq_some_iff.1 hv).1 hlength
    exact ⟨_, List.mem_map_of_mem hr, r.address, place, hp, HexRow.take_format r ascii, ha,
      (HexRow.shows_format_iff hne hp).2 hv⟩

/-- A listing shows the bytes of its range as they are stored, and nothing else. -/
theorem shows_hexDump_iff : Shows (m.hexDump start len ascii) a v ↔
    start.toNat ≤ a.toNat ∧ a.toNat < start.toNat + len ∧ m.peek a = v := by
  have ha := a.toNat_lt
  rw [shows_hexDump_iff_row]
  constructor
  · rintro ⟨r, hr, place, hplace, hv⟩
    obtain ⟨i, -, haddress, hb⟩ := mem_rows_iff.1 hr
    have hlt : place < 16 :=
      Nat.lt_of_lt_of_le (List.getElem?_eq_some_iff.1 hv).1 (bytes_of_mem_rows hr).2
    rw [hb, List.getElem?_take_of_lt hlt, List.getElem?_drop, getElem?_bytesFrom] at hv
    have hsum : start.toNat + (16 * i + place) = a.toNat := by omega
    rw [hsum, UInt16.ofNat_toNat] at hv
    exact ⟨by omega, by omega, hv.2⟩
  · rintro ⟨hlo, hhi, hv⟩
    obtain ⟨n, hn⟩ : ∃ n, a.toNat = start.toNat + n := ⟨a.toNat - start.toNat, by omega⟩
    have hget : (m.bytesFrom start len)[n]? = some v := by
      rw [getElem?_bytesFrom, ← hn, UInt16.ofNat_toNat]
      exact ⟨by omega, hv⟩
    have hlength := (List.getElem?_eq_some_iff.1 hget).1
    have haddress : (UInt16.ofNat (start.toNat + 16 * (n / 16))).toNat =
        start.toNat + 16 * (n / 16) :=
      UInt16.toNat_ofNat_of_lt (show start.toNat + 16 * (n / 16) < 0x10000 by omega)
    have hsum : a.toNat = start.toNat + 16 * (n / 16) + n % 16 := by omega
    refine ⟨⟨_, _⟩, mem_rows_iff.2 ⟨n / 16, by omega, haddress, rfl⟩, n % 16, ?_, ?_⟩
    · exact hsum.trans (congrArg (· + n % 16) haddress.symm)
    · rw [List.getElem?_take_of_lt (Nat.mod_lt n (by decide)), List.getElem?_drop,
        Nat.div_add_mod, hget]

end Memory

end Micro6502
