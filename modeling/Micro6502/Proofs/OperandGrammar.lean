import Mathlib.Data.Nat.Basic
import Mathlib.Order.Basic
import Micro6502.Proofs.Encoding
import Micro6502.Proofs.OperandText

namespace Micro6502

/-- Which texts match, and what is taken from each. -/
abbrev Pattern := Text → Operand → Prop

namespace Pattern

structure HexDigits (least most : Nat) (ds : Text) : Prop where
  least : least ≤ ds.length
  most : ds.length ≤ most
  digit : ∀ c ∈ ds, c.isDigit = true ∨ 'A' ≤ c ∧ c ≤ 'F' ∨ 'a' ≤ c ∧ c ≤ 'f'

structure DecimalDigits (ds : Text) : Prop where
  least : 1 ≤ ds.length
  most : ds.length ≤ 3
  digit : ∀ c ∈ ds, c.isDigit = true

structure Word (name : Text) : Prop where
  ne_nil : name ≠ []
  letter : ∀ c ∈ name, c.isDigit = true ∨ 'A' ≤ c ∧ c ≤ 'Z' ∨ 'a' ≤ c ∧ c ≤ 'z' ∨ c = '_'

def hex (least most : Nat) : Pattern := fun t k ↦
  ∃ ds, HexDigits least most ds ∧ t = '$' :: ds ∧ k = .hex ds

def decimal : Pattern := fun t k ↦ DecimalDigits t ∧ k = .decimal t

def label : Pattern := fun t k ↦ Word t ∧ k = .label t

def byte : Pattern := fun t k ↦ hex 1 2 t k ∨ decimal t k

def address (least : Nat) : Pattern := fun t k ↦ hex least 4 t k ∨ label t k

/-- A byte, or a name behind the mark of one of its halves. -/
def constant : Pattern := fun t k ↦
  byte t k ∨ ∃ name, Word name ∧ (t = '<' :: name ∧ k = .lowByte name ∨
    t = '>' :: name ∧ k = .highByte name)

def marked (mark : Char) (p : Pattern) : Pattern := fun t k ↦ ∃ u, p u k ∧ t = mark :: u

def indexedBy (upper lower : Char) (p : Pattern) : Pattern := fun t k ↦
  ∃ u c, p u k ∧ (c = upper ∨ c = lower) ∧ t = u ++ [',', c]

def parenthesized (p : Pattern) : Pattern := fun t k ↦ ∃ u, p u k ∧ t = '(' :: (u ++ [')'])

end Pattern

namespace AddressingMode

open Pattern

def pattern : AddressingMode → Pattern
  | single => fun t k ↦ (t = [] ∨ t = ['A'] ∨ t = ['a']) ∧ k = .none
  | immediate => marked '#' constant
  | zeroPage => byte
  | zeroPageX => indexedBy 'X' 'x' byte
  | zeroPageY => indexedBy 'Y' 'y' byte
  | absolute => address 3
  | absoluteX => indexedBy 'X' 'x' (address 3)
  | absoluteY => indexedBy 'Y' 'y' (address 3)
  | indirectX => parenthesized (indexedBy 'X' 'x' (hex 1 2))
  | indirectY => indexedBy 'Y' 'y' (parenthesized (hex 1 2))
  | relative => address 1
  | indirect => parenthesized (address 1)

def language (mode : AddressingMode) : Set Text := {t | ∃ k, mode.pattern t k}

def Precedes (mode mode' : AddressingMode) : Prop :=
  matchOrder.idxOf mode < matchOrder.idxOf mode'

end AddressingMode

namespace Pattern

open Operand hiding none

variable {p q : Pattern} {f g : Text → Option Operand} {t ds : Text} {o : Operand}
  {least most : Nat}

/-- What is read is what matches the pattern. -/
def Describes (p : Pattern) (f : Text → Option Operand) : Prop := ∀ t o, f t = some o ↔ p t o

theorem HexDigits.all (h : HexDigits least most ds) : ds.all Numeral.isHexDigit = true :=
  List.all_eq_true.2 fun c hc ↦ Numeral.isHexDigit_iff.2 (h.digit c hc)

theorem hexDigits_of_all (hl : least ≤ ds.length) (hm : ds.length ≤ most)
    (h : ds.all Numeral.isHexDigit = true) : HexDigits least most ds :=
  ⟨hl, hm, fun c hc ↦ Numeral.isHexDigit_iff.1 (List.all_eq_true.1 h c hc)⟩

theorem HexDigits.value_lt (h : HexDigits least most ds) : Numeral.value 16 ds < 16 ^ most := by
  have hdigits : ∀ c ∈ ds, Numeral.digit c < 16 := fun c hc ↦
    of_decide_eq_true (List.all_eq_true.1 h.all c hc)
  exact (Numeral.value_lt hdigits).trans_le (Nat.pow_le_pow_right (by decide) h.most)

theorem HexDigits.plus_notMem (h : HexDigits least most ds) : '+' ∉ ds := fun hplus ↦
  absurd (h.digit '+' hplus) (by decide)

theorem DecimalDigits.plus_notMem (h : DecimalDigits ds) : '+' ∉ ds := fun hplus ↦
  absurd (h.digit '+' hplus) (by decide)

theorem DecimalDigits.all (h : DecimalDigits ds) : ds.all (Numeral.isDigit 10) = true :=
  List.all_eq_true.2 fun c hc ↦ Numeral.isDigit_ten_iff.2 (h.digit c hc)

theorem DecimalDigits.value_lt (h : DecimalDigits ds) : Numeral.value 10 ds < 1000 := by
  have hdigits : ∀ c ∈ ds, Numeral.digit c < 10 := fun c hc ↦
    of_decide_eq_true (List.all_eq_true.1 h.all c hc)
  exact (Numeral.value_lt hdigits).trans_le (Nat.pow_le_pow_right (by decide) h.most)

theorem HexDigits.ofDigits? (h : HexDigits least most ds) (hl : 1 ≤ least) (hm : most ≤ 4) :
    Numeral.ofDigits? 16 ds = some (Numeral.value 16 ds) := by
  have hlt := h.value_lt.trans_le (Nat.pow_le_pow_right (by decide) hm)
  have hne : ds ≠ [] := List.length_pos_iff.1 (hl.trans h.least)
  exact if_pos ⟨hne, h.all, hlt.trans_le (by decide)⟩

theorem DecimalDigits.ofDigits? (h : DecimalDigits ds) :
    Numeral.ofDigits? 10 ds = some (Numeral.value 10 ds) :=
  if_pos ⟨List.length_pos_iff.1 h.least, h.all, h.value_lt.trans_le (by decide)⟩

theorem describes_hex (least most : Nat) : (hex least most).Describes (hexNumber? least most) := by
  intro t o
  constructor
  · intro h
    unfold hexNumber? at h
    split at h
    · rename_i ds
      split at h
      · rename_i hds
        exact ⟨ds, hexDigits_of_all hds.1 hds.2.1 hds.2.2, rfl, (Option.some.inj h).symm⟩
      · cases h
    · cases h
  · rintro ⟨ds, hds, rfl, rfl⟩
    exact if_pos ⟨hds.least, hds.most, hds.all⟩

theorem describes_decimal : decimal.Describes decimalNumber? := by
  intro t o
  constructor
  · intro h
    unfold decimalNumber? at h
    split at h
    · rename_i hds
      refine ⟨⟨hds.1, hds.2.1, fun c hc ↦ ?_⟩, (Option.some.inj h).symm⟩
      exact Numeral.isDigit_ten_iff.1 (List.all_eq_true.1 hds.2.2 c hc)
    · cases h
  · rintro ⟨hds, rfl⟩
    exact if_pos ⟨hds.least, hds.most, hds.all⟩

theorem word_iff {name : Text} : Word name ↔ name ≠ [] ∧ name.all Text.isWordChar = true := by
  have hletter (c : Char) : Text.isWordChar c = true ↔
      c.isDigit = true ∨ 'A' ≤ c ∧ c ≤ 'Z' ∨ 'a' ≤ c ∧ c ≤ 'z' ∨ c = '_' := by
    have hends : 'a'.toNat = 97 ∧ 'z'.toNat = 122 ∧ 'A'.toNat = 65 ∧ 'Z'.toNat = 90 := by decide
    have hdigit : c.isDigit = true ↔ 48 ≤ c.toNat ∧ c.toNat ≤ 57 := Char.isDigit_iff_toNat
    have hunderscore : c = '_' ↔ c.toNat = 95 := Char.toNat_inj.symm
    simp only [Text.isWordChar_iff, hdigit, hunderscore, Numeral.char_le_iff]
    omega
  rw [List.all_eq_true]
  simp only [hletter]
  exact ⟨fun h ↦ ⟨h.ne_nil, h.letter⟩, fun h ↦ ⟨h.1, h.2⟩⟩

theorem word?_eq_some_iff {name : Text} : word? t = some name ↔ Word t ∧ t = name := by
  rw [word?, Option.ite_none_right_eq_some, ← word_iff, Option.some.injEq]

theorem describes_label : label.Describes label? := by
  intro t o
  simp only [label?, Option.map_eq_some_iff, word?_eq_some_iff, label]
  constructor
  · rintro ⟨name, ⟨hname, rfl⟩, rfl⟩
    exact ⟨hname, rfl⟩
  · rintro ⟨hname, rfl⟩
    exact ⟨t, ⟨hname, rfl⟩, rfl⟩

/-- Of two patterns that no text matches both of, either one may be tried first. -/
theorem Describes.or (hp : p.Describes f) (hq : q.Describes g)
    (hdisjoint : ∀ {t o o'}, p t o → ¬ q t o') :
    Describes (fun t o ↦ p t o ∨ q t o) (fun t ↦ (f t).or (g t)) := by
  intro t o
  rw [Option.or_eq_some_iff, hp t o, hq t o]
  refine or_congr_right (and_iff_right_of_imp fun ho ↦ ?_)
  cases hf : f t with
  | none => rfl
  | some o' => exact absurd ho (hdisjoint ((hp t o').1 hf))

theorem not_decimal_of_hex {o' : Operand} (h : hex least most t o) : ¬ decimal t o' := by
  obtain ⟨ds, -, rfl, -⟩ := h
  intro hdecimal
  exact absurd (hdecimal.1.digit '$' List.mem_cons_self) (by decide)

theorem not_label_of_hex {o' : Operand} (h : hex least most t o) : ¬ label t o' := by
  obtain ⟨ds, -, rfl, -⟩ := h
  intro hlabel
  exact absurd (hlabel.1.letter '$' List.mem_cons_self) (by decide)

theorem describes_byte : byte.Describes byte? :=
  (describes_hex 1 2).or describes_decimal not_decimal_of_hex

theorem describes_address (least : Nat) :
    (address least).Describes fun t ↦ (hexNumber? least 4 t).or (label? t) :=
  (describes_hex least 4).or describes_label not_label_of_hex

theorem not_byte_cons {c : Char} (hc : c ≠ '$') (hd : c.isDigit = false) : ¬ byte (c :: t) o := by
  rintro (⟨ds, -, ht, -⟩ | ⟨hdigits, -⟩)
  · exact hc (List.cons.inj ht).1
  · exact Bool.false_ne_true (hd.symm.trans (hdigits.digit c List.mem_cons_self))

theorem describes_constant : constant.Describes constant? := by
  intro t o
  constructor
  · intro h
    unfold constant? at h
    split at h
    · obtain ⟨name, hname, rfl⟩ := Option.map_eq_some_iff.1 h
      obtain ⟨hword, rfl⟩ := word?_eq_some_iff.1 hname
      exact .inr ⟨_, hword, .inl ⟨rfl, rfl⟩⟩
    · obtain ⟨name, hname, rfl⟩ := Option.map_eq_some_iff.1 h
      obtain ⟨hword, rfl⟩ := word?_eq_some_iff.1 hname
      exact .inr ⟨_, hword, .inr ⟨rfl, rfl⟩⟩
    · exact .inl ((describes_byte _ _).1 h)
  · rintro (ho | ⟨name, hname, ⟨rfl, rfl⟩ | ⟨rfl, rfl⟩⟩)
    · unfold constant?
      split
      · exact absurd ho (not_byte_cons (by decide) (by decide))
      · exact absurd ho (not_byte_cons (by decide) (by decide))
      · exact (describes_byte _ _).2 ho
    · exact Option.map_eq_some_iff.2 ⟨name, word?_eq_some_iff.2 ⟨hname, rfl⟩, rfl⟩
    · exact Option.map_eq_some_iff.2 ⟨name, word?_eq_some_iff.2 ⟨hname, rfl⟩, rfl⟩

theorem Describes.indexedBy {upper lower : Char} (hp : p.Describes f)
    (hc : ∀ c : Char, c.toUpper = upper ↔ c = upper ∨ c = lower) :
    (indexedBy upper lower p).Describes fun t ↦ (beforeIndex? upper t).bind f := by
  intro t o
  rw [Option.bind_eq_some_iff]
  constructor
  · rintro ⟨u, hu, ho⟩
    obtain ⟨c, hupper, rfl⟩ := eq_of_beforeIndex? hu
    exact ⟨u, c, (hp u o).1 ho, (hc c).1 hupper, rfl⟩
  · rintro ⟨u, c, ho, hregister, rfl⟩
    refine ⟨u, ?_, (hp u o).2 ho⟩
    rw [beforeIndex?_append, if_pos ((hc c).2 hregister)]

theorem Describes.parenthesized (hp : p.Describes f) :
    (parenthesized p).Describes fun t ↦ (inParentheses? t).bind f := by
  intro t o
  rw [Option.bind_eq_some_iff]
  constructor
  · rintro ⟨u, hu, ho⟩
    exact ⟨u, (hp u o).1 ho, eq_of_inParentheses? hu⟩
  · rintro ⟨u, ho, rfl⟩
    exact ⟨u, inParentheses?_append u, (hp u o).2 ho⟩

end Pattern

namespace AddressingMode

open Pattern
open Operand hiding none

variable {mode : AddressingMode} {t : Text}

theorem describes_single : (pattern single).Describes single.operand? := by
  intro t o
  have hiff : t = [] ∨ t.capitals = ['A'] ↔ t = [] ∨ t = ['A'] ∨ t = ['a'] :=
    or_congr_right (Text.capitals_eq_singleton_iff (by decide) rfl)
  simp only [operand?, pattern, Option.ite_none_right_eq_some, hiff, Option.some.injEq]
  exact and_congr_right fun _ ↦ eq_comm

theorem describes_immediate : (pattern immediate).Describes immediate.operand? := by
  intro t o
  constructor
  · intro h
    obtain ⟨u, rfl, hu⟩ := operand?_immediate_some h
    exact ⟨u, (describes_constant u o).1 hu, rfl⟩
  · rintro ⟨u, ho, rfl⟩
    exact (describes_constant u o).2 ho

theorem describes_pattern (mode : AddressingMode) : mode.pattern.Describes mode.operand? := by
  have hx (c : Char) : c.toUpper = 'X' ↔ c = 'X' ∨ c = 'x' := Text.toUpper_eq_iff (by decide) rfl
  have hy (c : Char) : c.toUpper = 'Y' ↔ c = 'Y' ∨ c = 'y' := Text.toUpper_eq_iff (by decide) rfl
  have hbyte : (hex 1 2).Describes (hexNumber? 1 2) := describes_hex 1 2
  have haddress : (address 3).Describes address? := describes_address 3
  cases mode with
  | single => exact describes_single
  | immediate => exact describes_immediate
  | zeroPage => exact describes_byte
  | zeroPageX => exact describes_byte.indexedBy hx
  | zeroPageY => exact describes_byte.indexedBy hy
  | absolute => exact haddress
  | absoluteX => exact haddress.indexedBy hx
  | absoluteY => exact haddress.indexedBy hy
  | indirectX =>
    have h := (hbyte.indexedBy hx).parenthesized
    simp only [← Option.bind_assoc] at h
    exact h
  | indirectY =>
    have h := hbyte.parenthesized.indexedBy hy
    simp only [← Option.bind_assoc] at h
    exact h
  | relative => exact describes_address 1
  | indirect => exact (describes_address 1).parenthesized

end AddressingMode

end Micro6502
