import Micro6502.Proofs.OperandGrammar

namespace Micro6502

open Operand hiding none

/-- What stands around the number or the name of an operand. What stands last counts only if there
is a comma. -/
structure Marks where
  sign : Bool
  parenthesis : Bool
  last : Option Char
  deriving DecidableEq, Repr

namespace Marks

variable {t : Text} {c : Char}

def of (t : Text) : Marks :=
  ⟨'#' ∈ t, '(' ∈ t, if ',' ∈ t then t.getLast?.map Char.toUpper else none⟩

def Free (t : Text) : Prop := ∀ c ∈ ['#', '(', ','], c ∉ t

theorem free_of_not_mem (h : ∀ c, Text.isWordChar c = false → c ≠ '$' → c ∉ t) : Free t := by
  simp only [Free, List.forall_mem_cons]
  exact ⟨h '#' (by decide) (by decide), h '(' (by decide) (by decide),
    h ',' (by decide) (by decide), nofun⟩

theorem Free.cons (h : Free t) (hc : c ∉ ['#', '(', ',']) : Free (c :: t) := by
  intro d hd hmem
  obtain rfl | hmem := List.mem_cons.1 hmem
  · exact hc hd
  · exact h d hd hmem

theorem of_free (h : Free t) : of t = ⟨false, false, none⟩ := by
  simp only [Free, List.forall_mem_cons] at h
  simp [of, h]

theorem of_sign (h : Free t) : of ('#' :: t) = ⟨true, false, none⟩ := by
  simp only [Free, List.forall_mem_cons] at h
  simp [of, h]

theorem of_indexed (h : Free t) (hc : c ≠ '#') (hc' : c ≠ '(') :
    of (t ++ [',', c]) = ⟨false, false, some c.toUpper⟩ := by
  simp only [Free, List.forall_mem_cons] at h
  simp [of, h, hc.symm, hc'.symm]

theorem last_indexed (t : Text) (c : Char) : (of (t ++ [',', c])).last = some c.toUpper := by
  simp [of]

theorem of_parenthesized (h : Free t) : of ('(' :: (t ++ [')'])) = ⟨false, true, none⟩ := by
  simp only [Free, List.forall_mem_cons] at h
  simp [of, h]

theorem of_indexed_parenthesized (h : Free t) (hc : c ≠ '#') :
    of ('(' :: ((t ++ [',', c]) ++ [')'])) = ⟨false, true, some ')'⟩ := by
  simp only [Free, List.forall_mem_cons] at h
  simp [of, h, hc.symm, List.getLast?_cons]

theorem of_parenthesized_indexed (h : Free t) (hc : c ≠ '#') :
    of ('(' :: (t ++ [')']) ++ [',', c]) = ⟨false, true, some c.toUpper⟩ := by
  simp only [Free, List.forall_mem_cons] at h
  simp [of, h, hc.symm, List.getLast?_cons]

end Marks

namespace Pattern

variable {p : Pattern} {f : Text → Option Operand} {t : Text} {o : Operand} {c : Char} {least : Nat}

theorem Describes.not_mem (h : p.Describes f) (ho : p t o) (hf : c ∈ t → f t = none) : c ∉ t := by
  intro hc
  have hread : f t = some o := (h t o).2 ho
  rw [hf hc] at hread
  cases hread

theorem free_hex (h : hex 1 2 t o) : Marks.Free t :=
  Marks.free_of_not_mem fun _ hc hd ↦ (describes_hex 1 2).not_mem h (hexNumber?_of_mem hc hd)

theorem free_byte (h : byte t o) : Marks.Free t :=
  Marks.free_of_not_mem fun _ hc hd ↦ describes_byte.not_mem h (byte?_of_mem hc hd)

theorem free_address (h : address least t o) : Marks.Free t :=
  Marks.free_of_not_mem fun _ hc hd ↦ (describes_address least).not_mem h (hexOrLabel_of_mem hc hd)

theorem free_word (h : Word t) : Marks.Free t :=
  Marks.free_of_not_mem fun _ hc _ ↦
    describes_label.not_mem (p := label) ⟨h, rfl⟩ (label?_of_mem hc)

theorem free_constant (h : constant t o) : Marks.Free t := by
  obtain h | ⟨name, hname, ⟨rfl, -⟩ | ⟨rfl, -⟩⟩ := h
  · exact free_byte h
  · exact (free_word hname).cons (by decide)
  · exact (free_word hname).cons (by decide)

theorem marks_indexedBy {upper lower : Char} (hu : upper ∉ ['#', '(']) (hl : lower ∉ ['#', '('])
    (hupper : upper.toUpper = upper) (hlower : lower.toUpper = upper)
    (hfree : ∀ {u}, p u o → Marks.Free u) (h : indexedBy upper lower p t o) :
    Marks.of t = ⟨false, false, some upper⟩ := by
  obtain ⟨u, c, hp, hc, rfl⟩ := h
  simp only [List.mem_cons, not_or] at hu hl
  obtain rfl | rfl := hc
  · rw [Marks.of_indexed (hfree hp) hu.1 hu.2.1, hupper]
  · rw [Marks.of_indexed (hfree hp) hl.1 hl.2.1, hlower]

end Pattern

namespace AddressingMode

open Pattern

variable {mode mode' : AddressingMode} {t : Text} {o : Operand}

def marks : AddressingMode → Marks
  | single | zeroPage | absolute | relative => ⟨false, false, none⟩
  | immediate => ⟨true, false, none⟩
  | zeroPageX | absoluteX => ⟨false, false, some 'X'⟩
  | zeroPageY | absoluteY => ⟨false, false, some 'Y'⟩
  | indirectX => ⟨false, true, some ')'⟩
  | indirectY => ⟨false, true, some 'Y'⟩
  | indirect => ⟨false, true, none⟩

theorem marks_of_pattern (h : mode.pattern t o) : Marks.of t = mode.marks := by
  cases mode with
  | single =>
    obtain ⟨rfl | rfl | rfl, -⟩ := h
    · rfl
    · rfl
    · rfl
  | immediate =>
    obtain ⟨u, hu, rfl⟩ := h
    exact Marks.of_sign (free_constant hu)
  | zeroPage => exact Marks.of_free (free_byte h)
  | zeroPageX | zeroPageY =>
    exact marks_indexedBy (by decide) (by decide) (by decide) (by decide) free_byte h
  | absolute => exact Marks.of_free (free_address h)
  | absoluteX | absoluteY =>
    exact marks_indexedBy (by decide) (by decide) (by decide) (by decide)
      free_address h
  | indirectX =>
    obtain ⟨-, ⟨u, c, hu, hc, rfl⟩, rfl⟩ := h
    obtain rfl | rfl := hc
    · exact Marks.of_indexed_parenthesized (free_hex hu) (by decide)
    · exact Marks.of_indexed_parenthesized (free_hex hu) (by decide)
  | indirectY =>
    obtain ⟨-, c, ⟨u, hu, rfl⟩, hc, rfl⟩ := h
    obtain rfl | rfl := hc
    · exact Marks.of_parenthesized_indexed (free_hex hu) (by decide)
    · exact Marks.of_parenthesized_indexed (free_hex hu) (by decide)
  | relative => exact Marks.of_free (free_address h)
  | indirect =>
    obtain ⟨u, hu, rfl⟩ := h
    exact Marks.of_parenthesized (free_address hu)

theorem precedes_iff_mem {before after : List AddressingMode}
    (h : matchOrder = before ++ mode :: after) : mode'.Precedes mode ↔ mode' ∈ before := by
  have hnodup : (before ++ mode :: after).Nodup := h ▸ (by decide : matchOrder.Nodup)
  have hmode : mode ∉ before := fun hm ↦
    (List.nodup_append.1 hnodup).2.2 mode hm mode List.mem_cons_self rfl
  rw [Precedes, h, List.idxOf_append_of_notMem hmode, List.idxOf_cons_self, Nat.add_zero]
  constructor
  · intro hlt
    by_contra hmem
    rw [List.idxOf_append_of_notMem hmem] at hlt
    omega
  · intro hmem
    rw [List.idxOf_append_of_mem hmem]
    exact List.idxOf_lt_length_of_mem hmem

theorem precedes_or_precedes (h : mode ≠ mode') : mode.Precedes mode' ∨ mode'.Precedes mode := by
  have hne : matchOrder.idxOf mode ≠ matchOrder.idxOf mode' := fun heq ↦
    h ((List.idxOf_inj mode.mem_matchOrder).1 heq)
  exact Nat.lt_or_gt_of_ne hne

/-- The modes that agree in their marks, the earlier one first. -/
theorem eq_of_marks_eq (hp : mode.Precedes mode') (h : mode.marks = mode'.marks) :
    mode' = relative ∨ mode = single ∧ (mode' = zeroPage ∨ mode' = absolute) ∨
      mode = zeroPage ∧ mode' = absolute ∨ mode = zeroPageX ∧ mode' = absoluteX ∨
      mode = zeroPageY ∧ mode' = absoluteY := by
  have hall : ∀ mode ∈ matchOrder, ∀ mode' ∈ matchOrder, matchOrder.idxOf mode <
      matchOrder.idxOf mode' → mode.marks = mode'.marks → mode' = relative ∨
      mode = single ∧ (mode' = zeroPage ∨ mode' = absolute) ∨
      mode = zeroPage ∧ mode' = absolute ∨ mode = zeroPageX ∧ mode' = absoluteX ∨
      mode = zeroPageY ∧ mode' = absoluteY := by
    decide +kernel
  exact hall mode mode.mem_matchOrder mode' mode'.mem_matchOrder hp h

theorem operand?_of_marks_ne (h : Marks.of t ≠ mode.marks) : mode.operand? t = none := by
  cases ho : mode.operand? t with
  | none => rfl
  | some o => exact absurd (marks_of_pattern ((mode.describes_pattern t o).1 ho)) h

end AddressingMode

namespace Mnemonic

open AddressingMode

variable {m : Mnemonic} {t : Text} {mode mode' : AddressingMode} {r : Reading} {opcode : UInt8}

theorem findSome?_unique {α β : Type} {f : α → Option β} {a : α} {b : β} {l : List α}
    (hm : a ∈ l) (ha : f a = some b) (h : ∀ x, x ≠ a → f x = none) : l.findSome? f = some b := by
  induction l with
  | nil => exact absurd hm List.not_mem_nil
  | cons x l ih =>
    by_cases hx : x = a
    · rw [hx, List.findSome?_cons_of_isSome] <;> simp [ha]
    · rw [List.findSome?_cons, h x hx]
      exact ih ((List.mem_cons.1 hm).resolve_left (Ne.symm hx))

theorem encodings_of_relative : ∀ m ∈ all, m.opcode? .relative ≠ none →
    ∀ p ∈ m.encodings, p.1 = .relative := by
  decide +kernel

theorem opcode?_of_relative (ho : m.opcode? .relative = some opcode) (hm : mode ≠ .relative) :
    m.opcode? mode = none := by
  cases h : m.opcode? mode with
  | none => rfl
  | some opcode' =>
    have hr : m.opcode? .relative ≠ none := Option.ne_none_iff_exists'.2 ⟨_, ho⟩
    exact absurd (encodings_of_relative m m.mem_all hr _ (Instruction.mem_of_lookup_eq_some h)) hm

structure Takes (m : Mnemonic) (t : Text) (mode : AddressingMode) : Prop where
  supports : m.supports mode = true
  mem : t ∈ mode.language

/-- The operands that two modes of a mnemonic may have in common: the accumulator of a shift, and
decimal digits, which may have an index register behind them. -/
inductive Ambiguous (m : Mnemonic) (t : Text) : Prop where
  | accumulator : m ∈ [asl, lsr, rol, ror] → t = ['A'] ∨ t = ['a'] → Ambiguous m t
  | decimal : Pattern.DecimalDigits t → Ambiguous m t
  | indexed (ds : Text) (register : Char) : Pattern.DecimalDigits ds →
      register ∈ ['X', 'x', 'Y', 'y'] → t = ds ++ [',', register] → Ambiguous m t

theorem Ambiguous.ne_nil (h : m.Ambiguous t) : t ≠ [] := by
  rintro rfl
  cases h with
  | accumulator hm ht => obtain ht | ht := ht <;> cases ht
  | decimal hds => exact absurd hds.least (by decide)
  | indexed ds register hds hr ht =>
    exact List.append_ne_nil_of_right_ne_nil ds (List.cons_ne_nil ',' [register]) ht.symm

theorem Ambiguous.not_mem (h : m.Ambiguous t) : '$' ∉ t := by
  have hdigits {ds : Text} (hds : Pattern.DecimalDigits ds) : '$' ∉ ds := fun hmem ↦
    absurd (hds.digit '$' hmem) (by decide)
  cases h with
  | accumulator hm ht =>
    obtain rfl | rfl := ht
    · decide
    · decide
  | decimal hds => exact hdigits hds
  | indexed ds register hds hr ht =>
    rw [ht, List.mem_append, not_or]
    refine ⟨hdigits hds, fun hmem ↦ ?_⟩
    simp only [List.mem_cons, List.not_mem_nil, or_false] at hmem hr
    obtain hmem | rfl := hmem
    · exact absurd hmem (by decide)
    · exact absurd hr (by decide)

theorem takes_iff : m.Takes t mode ↔ (m.reading? t mode).isSome = true := by
  rw [Option.isSome_iff_exists]
  constructor
  · rintro ⟨hs, o, ho⟩
    exact ⟨⟨⟨m, mode⟩, o⟩, reading?_eq_some_iff.2 ⟨rfl, hs, (mode.describes_pattern t o).2 ho⟩⟩
  · rintro ⟨r, hr⟩
    obtain ⟨-, hs, ho⟩ := reading?_eq_some_iff.1 hr
    exact ⟨hs, r.operand, (mode.describes_pattern t r.operand).1 ho⟩

theorem mode_of_reading? (h : m.reading? t mode = some r) : r.mode = mode := by
  rw [(reading?_eq_some_iff.1 h).1]

theorem read?_eq_some_iff : m.read? t = some r ↔
    m.reading? t r.mode = some r ∧ ∀ mode, mode.Precedes r.mode → m.reading? t mode = none := by
  rw [read?, List.findSome?_eq_some_iff]
  constructor
  · rintro ⟨before, mode, after, hsplit, hr, hbefore⟩
    obtain rfl := mode_of_reading? hr
    exact ⟨hr, fun mode' hp ↦ hbefore mode' ((precedes_iff_mem hsplit).1 hp)⟩
  · rintro ⟨hr, hbefore⟩
    obtain ⟨before, after, hsplit⟩ := List.append_of_mem r.mode.mem_matchOrder
    refine ⟨before, r.mode, after, hsplit, hr, fun mode' hmem ↦ ?_⟩
    exact hbefore mode' ((precedes_iff_mem hsplit).2 hmem)

theorem mode?_eq_some_iff : m.mode? t = some mode ↔
    m.Takes t mode ∧ ∀ mode', mode'.Precedes mode → ¬ m.Takes t mode' := by
  simp only [mode?, Option.map_eq_some_iff, takes_iff, Option.not_isSome_iff_eq_none]
  constructor
  · rintro ⟨r, hr, rfl⟩
    obtain ⟨hreading, hbefore⟩ := read?_eq_some_iff.1 hr
    exact ⟨Option.isSome_iff_exists.2 ⟨r, hreading⟩, hbefore⟩
  · rintro ⟨hsome, hbefore⟩
    obtain ⟨r, hr⟩ := Option.isSome_iff_exists.1 hsome
    obtain rfl := mode_of_reading? hr
    exact ⟨r, read?_eq_some_iff.2 ⟨hr, hbefore⟩, rfl⟩

theorem decimal_of_byte_of_address {o o' : Operand} (hb : Pattern.byte t o)
    (ha : Pattern.address 3 t o') : Pattern.DecimalDigits t := by
  obtain ⟨ds, hds, rfl, -⟩ | ⟨hds, -⟩ := hb
  · obtain ⟨ds', hds', hcons, -⟩ | ha := ha
    · have heq := (List.cons.inj hcons).2
      have hmost := hds.most
      have hleast := hds'.least
      rw [heq] at hmost
      omega
    · exact absurd ha (Pattern.not_label_of_hex ⟨ds, hds, rfl, rfl⟩)
  · exact hds

theorem decimal_of_indexedBy {upper lower : Char} {o o' : Operand}
    (hb : Pattern.indexedBy upper lower Pattern.byte t o)
    (ha : Pattern.indexedBy upper lower (Pattern.address 3) t o') :
    ∃ ds c, Pattern.DecimalDigits ds ∧ (c = upper ∨ c = lower) ∧ t = ds ++ [',', c] := by
  obtain ⟨u, c, hu, hc, rfl⟩ := hb
  obtain ⟨u', c', hu', -, heq⟩ := ha
  obtain ⟨rfl, -⟩ := List.append_inj' heq rfl
  exact ⟨u, c, decimal_of_byte_of_address hu hu', hc, rfl⟩

theorem mem_shifts_of_single : ∀ m ∈ all, m.supports single = true →
    m.supports zeroPage = true ∨ m.supports absolute = true → m ∈ [asl, lsr, rol, ror] := by
  decide +kernel

theorem ne_nil_of_mem_zeroPage (h : t ∈ zeroPage.language) : t ≠ [] := by
  rintro rfl
  obtain ⟨k, ⟨ds, -, heq, -⟩ | ⟨hds, -⟩⟩ := h
  · cases heq
  · exact absurd hds.least (by decide)

theorem ne_nil_of_mem_absolute (h : t ∈ absolute.language) : t ≠ [] := by
  rintro rfl
  obtain ⟨k, ⟨ds, -, heq, -⟩ | ⟨hname, -⟩⟩ := h
  · cases heq
  · exact hname.ne_nil rfl

theorem Takes.ambiguous_of_precedes (h : m.Takes t mode) (h' : m.Takes t mode')
    (hp : mode.Precedes mode') : m.Ambiguous t := by
  obtain ⟨hs, k, hk⟩ := h
  obtain ⟨hs', k', hk'⟩ := h'
  have hmarks : mode.marks = mode'.marks := (marks_of_pattern hk).symm.trans (marks_of_pattern hk')
  obtain rfl | ⟨rfl, hmode⟩ | ⟨rfl, rfl⟩ | ⟨rfl, rfl⟩ | ⟨rfl, rfl⟩ := eq_of_marks_eq hp hmarks
  · have hne : mode ≠ relative := fun heq ↦ absurd hp (heq ▸ Nat.lt_irrefl _)
    obtain ⟨opcode, ho⟩ := Option.isSome_iff_exists.1 hs'
    rw [Mnemonic.supports, opcode?_of_relative ho hne] at hs
    cases hs
  · have hm : m ∈ [asl, lsr, rol, ror] := by
      refine mem_shifts_of_single m m.mem_all hs (hmode.imp ?_ ?_)
      · exact fun heq ↦ heq ▸ hs'
      · exact fun heq ↦ heq ▸ hs'
    have hne : t ≠ [] := by
      obtain rfl | rfl := hmode
      · exact ne_nil_of_mem_zeroPage ⟨k', hk'⟩
      · exact ne_nil_of_mem_absolute ⟨k', hk'⟩
    exact .accumulator hm (hk.1.resolve_left hne)
  · exact .decimal (decimal_of_byte_of_address hk hk')
  · obtain ⟨ds, c, hds, hc, ht⟩ := decimal_of_indexedBy hk hk'
    exact .indexed ds c hds (by obtain rfl | rfl := hc <;> decide) ht
  · obtain ⟨ds, c, hds, hc, ht⟩ := decimal_of_indexedBy hk hk'
    exact .indexed ds c hds (by obtain rfl | rfl := hc <;> decide) ht

theorem Takes.ambiguous (h : m.Takes t mode) (h' : m.Takes t mode') (hne : mode ≠ mode') :
    m.Ambiguous t := by
  obtain hp | hp := precedes_or_precedes hne
  · exact h.ambiguous_of_precedes h' hp
  · exact h'.ambiguous_of_precedes h hp

/-- Where only one mode takes the text, it is found in whatever order the modes are tried. -/
theorem findSome?_eq_some_of_not_ambiguous (h : ¬ m.Ambiguous t) (hr : m.reading? t mode = some r)
    {order : List AddressingMode} (horder : ∀ mode, mode ∈ order) :
    order.findSome? (m.reading? t) = some r := by
  have htakes : m.Takes t mode := takes_iff.2 (Option.isSome_iff_exists.2 ⟨r, hr⟩)
  refine findSome?_unique (horder mode) hr fun mode' hne ↦ ?_
  rw [← Option.not_isSome_iff_eq_none, ← takes_iff]
  exact fun htakes' ↦ h (htakes'.ambiguous htakes hne)

theorem findSome?_of_not_ambiguous (h : ¬ m.Ambiguous t) {order : List AddressingMode}
    (horder : ∀ mode, mode ∈ order) : order.findSome? (m.reading? t) = m.read? t := by
  cases hr : m.read? t with
  | none =>
    rw [List.findSome?_eq_none_iff]
    intro mode _
    exact List.findSome?_eq_none_iff.1 hr mode mode.mem_matchOrder
  | some r =>
    exact findSome?_eq_some_of_not_ambiguous h (read?_eq_some_iff.1 hr).1 horder

/-- How the mode of an operand is chosen, and where the order of the modes has a part in it. -/
structure Chooses (m : Mnemonic) (t : Text) : Prop where
  mode_iff : ∀ mode, m.mode? t = some mode ↔
    m.Takes t mode ∧ ∀ mode', mode'.Precedes mode → ¬ m.Takes t mode'
  ambiguous : ∀ mode mode', m.Takes t mode → m.Takes t mode' → mode ≠ mode' → m.Ambiguous t
  any_order : ¬ m.Ambiguous t → ∀ order : List AddressingMode, (∀ mode, mode ∈ order) →
    order.findSome? (m.reading? t) = m.read? t

/-- The mode of an operand is the first that takes it. Only the accumulator of a shift and decimal
digits are left to the order. -/
theorem chooses_first_mode (m : Mnemonic) (t : Text) : m.Chooses t :=
  ⟨fun _ ↦ mode?_eq_some_iff, fun _ _ h h' hne ↦ h.ambiguous h' hne,
    fun h _ horder ↦ findSome?_of_not_ambiguous h horder⟩

example : asl.mode? ['a'] = some single ∧ jmp.mode? ['a'] = some absolute := by decide +kernel

end Mnemonic

end Micro6502
