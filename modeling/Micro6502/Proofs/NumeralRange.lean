import Micro6502.Proofs.LineGrammar
import Micro6502.Proofs.NumeralGrammar

namespace Micro6502

namespace Numeral

def padded (k : Nat) : Text → Text
  | '$' :: ds => '$' :: (List.replicate k '0' ++ ds)
  | '%' :: ds => '%' :: (List.replicate k '0' ++ ds)
  | ds => List.replicate k '0' ++ ds

variable {base v w : Nat} {ds t : Text}

theorem Digits.cons_zero (h : Digits base ds v) : Digits base ('0' :: ds) v := by
  induction h with
  | @first c d hc hd =>
    have hzero : Digits base ['0'] 0 :=
      .first (.figure (by decide) (by decide)) (Nat.zero_lt_of_lt hd)
    have hnext := hzero.next hc hd
    rwa [Nat.zero_mul, Nat.zero_add] at hnext
  | next _ hc hd ih => exact ih.next hc hd

theorem Digits.replicate_append (h : Digits base ds v) (k : Nat) :
    Digits base (List.replicate k '0' ++ ds) v := by
  induction k with
  | zero => exact h
  | succ k ih => exact ih.cons_zero

theorem Denotes.padded (h : Denotes t v) (k : Nat) : Denotes (padded k t) v := by
  cases h with
  | hexadecimal h => exact .hexadecimal (h.replicate_append k)
  | binary h => exact .binary (h.replicate_append k)
  | decimal h =>
    unfold Numeral.padded
    split
    · exact absurd h (Digits.not_cons (by decide))
    · exact absurd h (Digits.not_cons (by decide))
    · exact .decimal (h.replicate_append k)

theorem padded_zero (t : Text) : padded 0 t = t := by
  unfold padded
  split
  · rfl
  · rfl
  · rfl

theorem Denotes.unique (h : Denotes t v) (h' : Denotes t w) : v = w := by
  cases h with
  | hexadecimal h => exact h.value_eq.symm.trans (denotes_dollar_iff.1 h').value_eq
  | binary h => exact h.value_eq.symm.trans (denotes_percent_iff.1 h').value_eq
  | decimal h =>
    cases h' with
    | hexadecimal _ => exact absurd h (Digits.not_cons (by decide))
    | binary _ => exact absurd h (Digits.not_cons (by decide))
    | decimal h' => exact h.value_eq.symm.trans h'.value_eq

theorem parse?_of_denotes (h : Denotes t.trim v) :
    parse? t = if v < 2 ^ 32 then some v else none := by
  split
  · rename_i hv
    exact parse?_eq_some_iff.2 ⟨.inl h, hv⟩
  · rename_i hv
    cases hp : parse? t with
    | none => rfl
    | some w =>
      obtain ⟨hw | hw, hlt⟩ := parse?_eq_some_iff.1 hp
      · exact absurd (h.unique hw ▸ hlt) hv
      · exact absurd h hw.not_denotes

theorem Digits.isWordChar (h : Digits base ds v) (hb : base ≤ 16) :
    ∀ c ∈ ds, Text.isWordChar c = true := by
  intro c hc
  refine isWordChar_of_isHexDigit (decide_eq_true ?_)
  exact Nat.lt_of_lt_of_le (of_decide_eq_true (h.all c hc)) hb

theorem Denotes.char (h : Denotes t v) :
    ∀ c ∈ t, c = '$' ∨ c = '%' ∨ Text.isWordChar c = true := by
  intro c hc
  cases h with
  | hexadecimal h =>
    obtain rfl | hc := List.mem_cons.1 hc
    · exact .inl rfl
    · exact .inr (.inr (h.isWordChar le_rfl c hc))
  | binary h =>
    obtain rfl | hc := List.mem_cons.1 hc
    · exact .inr (.inl rfl)
    · exact .inr (.inr (h.isWordChar (by decide) c hc))
  | decimal h => exact .inr (.inr (h.isWordChar (by decide) c hc))

theorem Denotes.isSolid (h : Denotes t v) : ∀ c ∈ t, Line.IsSolid c := by
  intro c hc
  obtain rfl | rfl | hw := h.char c hc
  · decide
  · decide
  · exact Line.isSolid_of_isWordChar hw

theorem Denotes.ne_nil (h : Denotes t v) : t ≠ [] := by
  cases h with
  | hexadecimal h => exact List.cons_ne_nil _ _
  | binary h => exact List.cons_ne_nil _ _
  | decimal h => exact h.ne_nil

theorem Denotes.trim_eq (h : Denotes t v) : t.trim = t :=
  Line.trim_of_isSolid h.isSolid

theorem Denotes.comma_not_mem (h : Denotes t.trim v) : ',' ∉ t := by
  obtain ⟨b, hb, ht⟩ := Text.exists_trim t
  intro hm
  rw [ht, List.mem_append, List.mem_append] at hm
  obtain hm | hm | hm := hm
  · exact absurd (List.mem_takeWhile_imp hm) (by decide)
  · obtain h | h | h := h.char ',' hm
    · exact absurd h (by decide)
    · exact absurd h (by decide)
    · exact absurd h (by decide)
  · exact absurd (hb _ hm) (by decide)

theorem Denotes.entry_ne_nil (h : Denotes t.trim v) : t ≠ [] := by
  rintro rfl
  exact h.ne_nil rfl

/-- Entries of a byte list and the bytes that they stand for. An empty one stands for none. -/
inductive Entries : List Text → List UInt8 → Prop
  | nil : Entries [] []
  | skip {es : List Text} {bs : List UInt8} (hes : Entries es bs) : Entries ([] :: es) bs
  | byte {e : Text} {b : UInt8} {es : List Text} {bs : List UInt8} (he : Denotes e.trim b.toNat)
      (hes : Entries es bs) : Entries (e :: es) (b :: bs)

theorem Entries.comma_not_mem {es : List Text} {bs : List UInt8} (h : Entries es bs) :
    ∀ e ∈ es, ',' ∉ e := by
  induction h with
  | nil => exact nofun
  | skip _ ih => exact List.forall_mem_cons.2 ⟨List.not_mem_nil, ih⟩
  | byte he _ ih => exact List.forall_mem_cons.2 ⟨he.comma_not_mem, ih⟩

end Numeral

namespace Statement

open Numeral hiding value

variable {v : Nat} {t e : Text} {es before after : List Text} {bs cs : List UInt8}

theorem fields_eq_splitOn (t : Text) : fields t = t.splitOn ',' := by
  induction t with
  | nil => rfl
  | cons c t ih =>
    rw [fields, List.splitOn_cons_eq_if_modifyHead, ih]
    obtain ⟨f, fs, hf⟩ := List.exists_cons_of_ne_nil (List.splitOn_ne_nil ',' t)
    simp only [hf, beq_iff_eq, List.modifyHead_cons]

theorem literals_intercalate (h : ∀ e ∈ es, ',' ∉ e) (hne : es ≠ []) :
    literals (List.intercalate [','] es) = (es.filter (· ≠ [])).mapM literal := by
  rw [literals, fields_eq_splitOn, List.splitOn_intercalate ',' h hne]

theorem literal_of_denotes (h : Denotes e.trim v) : literal e =
    if v ≤ 0xFF then .ok (UInt8.ofNat v)
    else if v < 2 ^ 32 then .error (.valueOutOfRange v 0xFF) else .error (.invalidByte e) := by
  rw [literal, parse?_of_denotes h]
  by_cases hv : v < 2 ^ 32
  · rw [if_pos hv, if_pos hv]
    rfl
  · rw [if_neg hv, if_neg hv, if_neg (by omega)]

theorem relocation_of_denotes (h : Denotes t v) : relocation t =
    if v ≤ 0xFFFF then .ok (.relocate (UInt16.ofNat v))
    else if v < 2 ^ 32 then .error .relocationOutOfRange else .error (.invalidNumber t) := by
  have hparse := parse?_of_denotes (h.trim_eq.symm ▸ h)
  rw [relocation, hparse, h.trim_eq]
  by_cases hv : v < 2 ^ 32
  · rw [if_pos hv, if_pos hv]
  · rw [if_neg hv, if_neg hv, if_neg (by omega)]

theorem filter_entries (h : Denotes e.trim v) (es : List Text) :
    (e :: es).filter (· ≠ []) = e :: es.filter (· ≠ []) :=
  List.filter_cons_of_pos (by simpa using h.entry_ne_nil)

theorem mapM_literal_of_entries (h : Entries es bs) :
    (es.filter (· ≠ [])).mapM literal = .ok bs := by
  induction h with
  | nil => rfl
  | skip _ ih => exact ih
  | @byte e b es bs he _ ih =>
    have hb : literal e = .ok b := by
      rw [literal_of_denotes he, if_pos (Nat.le_of_lt_succ b.toNat_lt), UInt8.ofNat_toNat]
    rw [filter_entries he, List.mapM_cons, hb, ih]
    rfl

theorem literals_of_denotes (hb : Entries before bs) (he : Denotes e.trim v)
    (ha : ∀ f ∈ after, ',' ∉ f) :
    literals (List.intercalate [','] (before ++ e :: after)) =
      literal e >>= fun b ↦ ((after.filter (· ≠ [])).mapM literal).map (bs ++ b :: ·) := by
  have hcomma : ∀ f ∈ before ++ e :: after, ',' ∉ f :=
    List.forall_mem_append.2 ⟨hb.comma_not_mem, List.forall_mem_cons.2 ⟨he.comma_not_mem, ha⟩⟩
  rw [literals_intercalate hcomma (by simp), List.filter_append, filter_entries he,
    List.mapM_append, mapM_literal_of_entries hb, List.mapM_cons]
  cases literal e with
  | error r => rfl
  | ok b => cases (after.filter (· ≠ [])).mapM literal <;> rfl

end Statement

namespace Numeral

/-- The numerals for a number do what the number says, whatever the zeros before their digits. As
the target of a relocation it must be an address, and as an entry of a byte list a byte. Else it is
out of range. -/
structure RangeChecked (t : Text) (v : Nat) : Prop where
  relocation : ∀ k label line number pc s,
    Line.Spells ⟨label, .relocate (padded k t)⟩ line →
    Pass.commit.line number pc s line =
      if v ≤ 0xFFFF then .ok (s, .relocate (UInt16.ofNat v)) else .error .relocationOutOfRange
  byte : v ≤ 0xFF → ∀ k label line number pc s before e after bs cs, e.trim = padded k t →
    Entries before bs → Entries after cs →
    Line.Spells ⟨label, .bytes (List.intercalate [','] (before ++ e :: after))⟩ line →
    pc + (bs ++ UInt8.ofNat v :: cs).length ≤ 0x10000 →
    Pass.commit.line number pc s line = .ok (s, .bytes (bs ++ UInt8.ofNat v :: cs))
  wide : 0xFF < v → ∀ k label line number pc s before e after bs, e.trim = padded k t →
    Entries before bs → (∀ f ∈ after, ',' ∉ f) →
    Line.Spells ⟨label, .bytes (List.intercalate [','] (before ++ e :: after))⟩ line →
    Pass.commit.line number pc s line = .error (.valueOutOfRange v 0xFF)
  kinds : LineError.relocationOutOfRange.kind = .range ∧
    (LineError.valueOutOfRange v 0xFF).kind = .range

variable {v number pc : Nat} {t e ds line : Text} {label : Option Text} {s : SymbolTable}
  {before after : List Text} {bs : List UInt8}

theorem line_commit_of_relocation (h : Denotes t v)
    (hline : Line.Spells ⟨label, .relocate t⟩ line) :
    Pass.commit.line number pc s line =
      if v ≤ 0xFFFF then .ok (s, .relocate (UInt16.ofNat v))
      else if v < 2 ^ 32 then .error .relocationOutOfRange else .error (.invalidNumber t) := by
  rw [Pass.line_commit_of_some (Line.parse?_of_spells hline), Statement.effect,
    Statement.relocation_of_denotes h]
  split_ifs
  · rfl
  · rfl
  · rfl

theorem line_commit_of_bytes (hb : Entries before bs) (he : Denotes e.trim v)
    (ha : ∀ f ∈ after, ',' ∉ f)
    (hline : Line.Spells ⟨label, .bytes (List.intercalate [','] (before ++ e :: after))⟩ line) :
    Pass.commit.line number pc s line =
      ((Statement.literal e >>= fun b ↦
        ((after.filter (· ≠ [])).mapM Statement.literal).map (bs ++ b :: ·)).map Effect.bytes >>=
          Effect.fit pc).map (s, ·) := by
  rw [Pass.line_commit_of_some (Line.parse?_of_spells hline), Statement.effect,
    Statement.literals_of_denotes hb he ha]

theorem spells_numeral (h : Denotes t v) :
    Line.Spells ⟨none, .bytes t⟩ (['D', 'C', 'B'] ++ ([' '] ++ t)) := by
  have hword : Pattern.Word ['D', 'C', 'B'] := Pattern.word_iff.2 (by decide)
  have hspace : Line.IsMargin [' '] := by decide
  have htail := Statement.Tail.operand hspace (List.cons_ne_nil _ _)
    (Statement.isOperandText_of_isSolid h.isSolid)
  rw [Line.filter_of_isSolid h.isSolid] at htail
  exact Line.spells_statement (.bytes hword rfl htail)

/-- Every numeral of at most 32 bits is checked for its range, and no other. -/
theorem rangeChecked_iff (h : Denotes t v) : RangeChecked t v ↔ v < 2 ^ 32 := by
  constructor
  · intro hrange
    by_contra hv
    have htrim : Denotes t.trim v := h.trim_eq.symm ▸ h
    have hsingle : List.intercalate [','] ([] ++ [t]) = t := List.intercalate_singleton
    have hspells : Line.Spells ⟨none, .bytes (List.intercalate [','] ([] ++ [t]))⟩
        (['D', 'C', 'B'] ++ ([' '] ++ t)) := hsingle.symm ▸ spells_numeral h
    have hnone : ∀ f ∈ ([] : List Text), ',' ∉ f := nofun
    have hcheck := hrange.wide (by omega) 0 none _ 1 0 .empty [] t [] []
      (by rw [h.trim_eq, padded_zero]) .nil hnone hspells
    have hliteral := Statement.literal_of_denotes htrim
    rw [if_neg (by omega), if_neg hv] at hliteral
    rw [line_commit_of_bytes .nil htrim hnone hspells, hliteral] at hcheck
    cases hcheck
  · intro hv
    constructor
    case relocation =>
      intro k label line number pc s hline
      rw [line_commit_of_relocation (h.padded k) hline, if_pos hv]
    case byte =>
      intro hbyte k label line number pc s before e after bs cs he hb ha hline hfit
      have hdenotes : Denotes e.trim v := he ▸ h.padded k
      rw [line_commit_of_bytes hb hdenotes ha.comma_not_mem hline,
        Statement.literal_of_denotes hdenotes, if_pos hbyte,
        Statement.mapM_literal_of_entries ha]
      simp only [Except.ok_bind, Except.map_ok, Effect.fit, if_pos hfit]
    case wide =>
      intro hwide k label line number pc s before e after bs he hb ha hline
      have hdenotes : Denotes e.trim v := he ▸ h.padded k
      rw [line_commit_of_bytes hb hdenotes ha hline, Statement.literal_of_denotes hdenotes,
        if_neg (Nat.not_le.2 hwide), if_pos hv]
      rfl
    case kinds => exact ⟨rfl, rfl⟩

def widest : Text := '$' :: List.replicate 8 'F'

def tooWide : Text := '$' :: '1' :: List.replicate 8 '0'

theorem denotes_of_value (hne : ds ≠ []) (hds : ds.all isHexDigit = true)
    (hv : value 16 ds = v) : Denotes ('$' :: ds) v :=
  .hexadecimal (hv ▸ digits_value le_rfl hne (List.all_eq_true.1 hds))

theorem denotes_widest : Denotes widest 0xFFFFFFFF :=
  denotes_of_value (by decide) (by decide) (by decide +kernel)

theorem denotes_tooWide : Denotes tooWide 0x100000000 :=
  denotes_of_value (by decide) (by decide) (by decide +kernel)

theorem rangeChecked_iff_widest :
    Denotes widest (0xFFFFFFFF) ∧ (RangeChecked widest (0xFFFFFFFF) ↔ 0xFFFFFFFF < 2 ^ 32) ∧
      RangeChecked widest (0xFFFFFFFF) :=
  ⟨denotes_widest, rangeChecked_iff denotes_widest, (rangeChecked_iff denotes_widest).2 (by decide)⟩

/-- A relocation to it is malformed instead of out of range. -/
theorem not_rangeChecked_tooWide :
    Denotes tooWide 0x100000000 ∧
      Pass.commit.line 1 0x0600 .empty ("* = ".toList ++ tooWide) =
        .error (.invalidNumber tooWide) ∧
      (LineError.invalidNumber tooWide).kind = .malformed ∧ ¬ RangeChecked tooWide 0x100000000 := by
  have hline : Line.Spells ⟨none, .relocate tooWide⟩ ("* = ".toList ++ tooWide) := by
    have hspace : Line.IsMargin [' '] := by decide
    have htarget : Statement.IsTarget tooWide := Statement.isTarget_iff.2 (by decide +kernel)
    exact Line.spells_statement (.relocate hspace hspace htarget)
  have hcommit : Pass.commit.line 1 0x0600 .empty ("* = ".toList ++ tooWide) =
      .error (.invalidNumber tooWide) := by
    rw [line_commit_of_relocation denotes_tooWide hline]
    rfl
  refine ⟨denotes_tooWide, hcommit, rfl, fun h ↦ ?_⟩
  have hcheck := h.relocation 0 none _ 1 0x0600 .empty (padded_zero tooWide ▸ hline)
  cases hcommit.symm.trans hcheck

end Numeral

end Micro6502
