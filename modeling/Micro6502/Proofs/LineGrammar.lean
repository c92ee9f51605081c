import Micro6502.Proofs.Failure
import Micro6502.Proofs.Line
import Micro6502.Proofs.OperandGrammar
import Micro6502.Proofs.Restyling

namespace Micro6502

namespace Statement

/-- An operand as it is written. It may hold anything but a semicolon and a line feed, also blanks,
but not at its ends. -/
structure IsOperandText (t : Text) : Prop where
  semicolon : ';' ∉ t
  feed : '\n' ∉ t
  head : ∀ c ∈ t.head?, Text.isBlank c = false
  last : ∀ c ∈ t.getLast?, Text.isBlank c = false

/-- What stands behind a mnemonic: nothing, or blanks and the text of an operand. Spaces in it do
not belong to the operand. -/
inductive Tail : Text → Text → Prop
  | nil : Tail [] []
  | operand {gap t : Text} (hg : Line.IsMargin gap) (hne : gap ≠ []) (ht : IsOperandText t) :
      Tail (t.filter (· ≠ ' ')) (gap ++ t)

inductive IsTarget : Text → Prop
  | hex {ds : Text} (h : ∀ c ∈ ds, c.isDigit = true ∨ 'A' ≤ c ∧ c ≤ 'F' ∨ 'a' ≤ c ∧ c ≤ 'f') :
      IsTarget ('$' :: ds)
  | plain {ds : Text} (h : ∀ c ∈ ds, c.isDigit = true ∨ 'A' ≤ c ∧ c ≤ 'F' ∨ 'a' ≤ c ∧ c ≤ 'f') :
      IsTarget ds

/-- How a statement is written. The mnemonic may be in either case, and so may the word that
announces a list of bytes. -/
inductive Spells : Statement → Text → Prop
  | empty : Spells .empty []
  | relocate {gap gap' target : Text} (hg : Line.IsMargin gap) (hg' : Line.IsMargin gap')
      (ht : IsTarget target) : Spells (.relocate target) ('*' :: (gap ++ '=' :: (gap' ++ target)))
  | bytes {word list tail : Text} (hw : Pattern.Word word) (hb : word.capitals = ['D', 'C', 'B'])
      (ht : Tail list tail) : Spells (.bytes list) (word ++ tail)
  | instruction {word operand tail : Text} (hw : Pattern.Word word)
      (hb : word.capitals ≠ ['D', 'C', 'B']) (ht : Tail operand tail) :
      Spells (.instruction word.capitals operand) (word ++ tail)

end Statement

/-- How a line is written: blanks, a label with its colon or none, blanks, the statement, blanks,
and a comment or none. -/
inductive Line.Spells : Line → Text → Prop
  | mk {label : Option Text} {statement : Statement} {before gap body after comment : Text}
      (hb : IsMargin before) (hl : ∀ name, label = some name → Pattern.Word name)
      (hg : IsMargin gap) (hs : statement.Spells body) (ha : IsMargin after)
      (hc : IsComment comment) :
      Line.Spells ⟨label, statement⟩
        (before ++ (mark label ++ (gap ++ (body ++ after))) ++ comment)

namespace Text

variable {t b : Text} {c : Char}

theorem trimEnd_eq_self (h : ∀ c ∈ t.getLast?, isBlank c = false) : trimEnd t = t := by
  obtain rfl | ⟨u, d, rfl⟩ := List.eq_nil_or_concat' t
  · rfl
  · have hd := h d List.getLast?_concat
    exact List.rdropWhile_concat_neg _ _ _ (by simp [hd])

theorem getLast?_trim (t : Text) : ∀ c ∈ (trim t).getLast?, isBlank c = false := by
  intro c hc
  rw [trim, List.getLast?_reverse] at hc
  have hhead := List.head?_dropWhile_not isBlank (skip t).reverse
  rw [show (skip t).reverse.dropWhile isBlank = skip (skip t).reverse from rfl, hc] at hhead
  exact hhead

theorem takeWhile_append_skip (t : Text) : t.takeWhile isBlank ++ skip t = t :=
  List.takeWhile_append_dropWhile

theorem head?_skip (t : Text) : ∀ c ∈ (skip t).head?, isBlank c = false := by
  intro c hc
  have hhead := List.head?_dropWhile_not isBlank t
  rw [show t.dropWhile isBlank = skip t from rfl, hc] at hhead
  exact hhead

end Text

namespace Line

variable {t u : Text}

theorem IsMargin.blank (h : IsMargin t) : ∀ c ∈ t, Text.isBlank c = true := fun c hc ↦ (h c hc).1

theorem IsMargin.append (ht : IsMargin t) (hu : IsMargin u) : IsMargin (t ++ u) :=
  List.forall_mem_append.2 ⟨ht, hu⟩

theorem IsMargin.semicolon_not_mem (h : IsMargin t) : ';' ∉ t :=
  fun hm ↦ absurd (h _ hm).1 (by decide)

theorem IsMargin.feed_not_mem (h : IsMargin t) : '\n' ∉ t := fun hm ↦ (h _ hm).2 rfl

theorem isMargin_takeWhile (h : '\n' ∉ t) : IsMargin (t.takeWhile Text.isBlank) := by
  intro c hc
  refine ⟨List.mem_takeWhile_imp hc, ?_⟩
  rintro rfl
  exact h ((List.takeWhile_prefix _).subset hc)

/-- A piece of a line is a text without blanks at its ends, between blanks. -/
theorem exists_margins (h : '\n' ∉ t) :
    ∃ before after, IsMargin before ∧ IsMargin after ∧ t = before ++ (Text.trim t ++ after) := by
  obtain ⟨after, hafter, ht⟩ := Text.exists_trim t
  refine ⟨_, after, isMargin_takeWhile h, fun c hc ↦ ⟨hafter c hc, ?_⟩, ht⟩
  rintro rfl
  exact h (ht ▸ List.mem_append_right _ (List.mem_append_right _ hc))

end Line

namespace Pattern

variable {word : Text}

theorem Word.isWordChar (h : Word word) : ∀ c ∈ word, Text.isWordChar c = true :=
  List.all_eq_true.1 (word_iff.1 h).2

theorem word_of_isWordChar (hne : word ≠ []) (h : ∀ c ∈ word, Text.isWordChar c = true) :
    Word word :=
  word_iff.2 ⟨hne, List.all_eq_true.2 h⟩

end Pattern

namespace Statement

open Line

variable {st : Statement} {operand tail target body after t : Text}

theorem isTarget_iff : IsTarget target ↔ Line.isTarget target = true := by
  have hdigits (ds : Text) : ds.all Numeral.isHexDigit = true ↔
      ∀ c ∈ ds, c.isDigit = true ∨ 'A' ≤ c ∧ c ≤ 'F' ∨ 'a' ≤ c ∧ c ≤ 'f' := by
    rw [List.all_eq_true]
    exact forall₂_congr fun c _ ↦ Numeral.isHexDigit_iff
  constructor
  · rintro (h | h)
    · exact (hdigits _).2 h
    · unfold Line.isTarget
      split
      · exact (hdigits _).2 fun c hc ↦ h c (List.mem_cons_of_mem _ hc)
      · exact (hdigits _).2 h
  · intro h
    unfold Line.isTarget at h
    split at h
    · exact .hex ((hdigits _).1 h)
    · exact .plain ((hdigits _).1 h)

theorem IsTarget.char (h : IsTarget target) :
    ∀ c ∈ target, c = '$' ∨ Text.isWordChar c = true := by
  have hword {c : Char} (hc : c.isDigit = true ∨ 'A' ≤ c ∧ c ≤ 'F' ∨ 'a' ≤ c ∧ c ≤ 'f') :
      Text.isWordChar c = true :=
    Numeral.isWordChar_of_isHexDigit (Numeral.isHexDigit_iff.2 hc)
  intro c hc
  cases h with
  | hex h =>
    obtain rfl | hc := List.mem_cons.1 hc
    · exact .inl rfl
    · exact .inr (hword (h c hc))
  | plain h => exact .inr (hword (h c hc))

theorem IsTarget.isSolid (h : IsTarget target) : ∀ c ∈ target, IsSolid c := by
  intro c hc
  obtain rfl | hw := h.char c hc
  · decide
  · exact isSolid_of_isWordChar hw

theorem isOperandText_of_isSolid (h : ∀ c ∈ t, IsSolid c) : IsOperandText t := by
  constructor
  case semicolon => exact not_mem_of_isSolid h (by decide)
  case feed => exact not_mem_of_isSolid h (by decide)
  case head => exact fun c hc ↦ (h c (List.mem_of_head? hc)).1
  case last => exact fun c hc ↦ (h c (List.mem_of_getLast? hc)).1

theorem Tail.operandText? (h : Tail operand tail) (ha : IsMargin after) :
    operandText? (Text.trimEnd (tail ++ after)) = some operand := by
  rw [Text.trimEnd_append ha.blank]
  cases h with
  | nil => rfl
  | @operand gap t hg hne ht =>
    obtain rfl | hnil := eq_or_ne t []
    -- Blanks alone leave no operand, and they are gone with those at the end of the line.
    · have hend : Text.trimEnd gap = [] := Text.trimEnd_append (t := []) hg.blank
      rw [List.append_nil, hend]
      rfl
    · have hend : Text.trimEnd (gap ++ t) = gap ++ t := by
        apply Text.trimEnd_eq_self
        rw [List.getLast?_append_of_ne_nil _ hnil]
        exact ht.last
      have hskip : Text.skip (gap ++ t) = t := by
        rw [Text.skip_append hg.blank, Text.skip_eq_self ht.head]
      obtain ⟨c, gap, rfl⟩ := List.exists_cons_of_ne_nil hne
      rw [hend]
      rw [List.cons_append] at hskip ⊢
      rw [Line.operandText?, hskip, if_neg ht.feed]
      exact if_pos (hg c List.mem_cons_self).1

theorem Tail.head (h : Tail operand tail) (ha : IsMargin after) :
    ∀ c ∈ (tail ++ after).head?, Text.isWordChar c = false ∧ c ≠ ':' := by
  have hmargin {m u : Text} (hm : IsMargin m) (hne : m ≠ []) :
      ∀ c ∈ (m ++ u).head?, Text.isWordChar c = false ∧ c ≠ ':' := by
    intro c hc
    rw [List.head?_append_of_ne_nil _ hne] at hc
    have hblank := (hm c (List.mem_of_head? hc)).1
    refine ⟨Text.isWordChar_of_isBlank hblank, ?_⟩
    rintro rfl
    exact absurd hblank (by decide)
  cases h with
  | nil =>
    obtain rfl | hne := eq_or_ne after []
    · exact nofun
    · have hhead := hmargin (u := []) ha hne
      rwa [List.append_nil] at hhead
  | operand hg hne ht =>
    rw [List.append_assoc]
    exact hmargin hg hne

theorem Tail.semicolon_not_mem (h : Tail operand tail) : ';' ∉ tail := by
  cases h with
  | nil => exact List.not_mem_nil
  | operand hg hne ht => exact List.not_mem_append hg.semicolon_not_mem ht.semicolon

theorem Tail.feed_not_mem (h : Tail operand tail) : '\n' ∉ tail := by
  cases h with
  | nil => exact List.not_mem_nil
  | operand hg hne ht => exact List.not_mem_append hg.feed_not_mem ht.feed

theorem relocation?_trim {gap gap' : Text} (hg : IsMargin gap) (hg' : IsMargin gap')
    (ht : IsTarget target) (ha : IsMargin after) :
    relocation? (Text.trim ('*' :: (gap ++ '=' :: (gap' ++ target)) ++ after)) = some target := by
  have htarget : Text.trim (gap' ++ target ++ after) = target := by
    rw [Text.trim_append_right ha.blank, Text.trim_append_left hg'.blank]
    exact trim_of_isSolid ht.isSolid
  have htrim : Text.trim ('*' :: (gap ++ '=' :: (gap' ++ target)) ++ after) =
      '*' :: (gap ++ '=' :: Text.trimEnd (gap' ++ target ++ after)) := by
    have hassoc : gap ++ '=' :: (gap' ++ target) ++ after =
        gap ++ '=' :: (gap' ++ target ++ after) := by simp
    rw [List.cons_append, Text.trim_cons (by decide), hassoc, Text.trimEnd_append_cons (by decide)]
  have hskip : Text.skip (gap ++ '=' :: Text.trimEnd (gap' ++ target ++ after)) =
      '=' :: Text.trimEnd (gap' ++ target ++ after) := by
    rw [Text.skip_append hg.blank, Text.skip_cons (by decide)]
  rw [htrim, relocation?, hskip]
  simp only [Text.skip_trimEnd, htarget]
  exact if_pos (isTarget_iff.1 ht)

end Statement

namespace Line

open Statement

variable {l : Line} {line t rest name : Text} {st : Statement}

theorem spells_unlabelled {before body after comment : Text} (hb : IsMargin before)
    (hs : st.Spells body) (ha : IsMargin after) (hc : IsComment comment) :
    Spells ⟨none, st⟩ (before ++ (body ++ after) ++ comment) :=
  @Spells.mk none st before [] body after comment hb nofun nofun hs ha hc

theorem spells_statement {body : Text} (hs : st.Spells body) : Spells ⟨none, st⟩ body := by
  have hspells := @spells_unlabelled st [] body [] [] nofun hs nofun (.inl rfl)
  rwa [List.append_nil, List.append_nil] at hspells

theorem worded_eq_bytes {word operand : Text} (h : word.capitals = ['D', 'C', 'B']) :
    worded word operand = .bytes operand := if_pos h

theorem worded_eq_instruction {word operand : Text} (h : word.capitals ≠ ['D', 'C', 'B']) :
    worded word operand = .instruction word.capitals operand := if_neg h

theorem isWordChar_label {label : Option Text}
    (hl : ∀ name, label = some name → Pattern.Word name) :
    ∀ name, label = some name → (∀ c ∈ name, Text.isWordChar c = true) ∧ name ≠ [] :=
  fun name hname ↦ ⟨(hl name hname).isWordChar, (hl name hname).ne_nil⟩

theorem parse?_word {label : Option Text} {before gap word operand tail after comment : Text}
    (hb : IsMargin before) (hl : ∀ name, label = some name → Pattern.Word name)
    (hg : IsMargin gap) (hw : Pattern.Word word) (ht : Tail operand tail) (ha : IsMargin after)
    (hc : IsComment comment) :
    parse? (before ++ (mark label ++ (gap ++ (word ++ tail ++ after))) ++ comment) =
      some ⟨label, worded word operand⟩ := by
  have hassoc : before ++ (mark label ++ (gap ++ (word ++ tail ++ after))) ++ comment =
      before ++ (mark label ++ (gap ++ (word ++ (tail ++ after ++ comment)))) := by simp
  rw [hassoc, parse?_word_append hb.blank (isWordChar_label hl) hg hw.isWordChar hw.ne_nil
    (ht.head ha) (List.not_mem_append ht.semicolon_not_mem ha.semicolon_not_mem)
    (List.not_mem_append ht.feed_not_mem ha.feed_not_mem) hc, ht.operandText? ha]
  rfl

theorem parse?_wordless {label : Option Text} {before gap body after comment : Text}
    (hb : IsMargin before) (hl : ∀ name, label = some name → Pattern.Word name)
    (hg : IsMargin gap) (hbody : ∀ c ∈ (Text.trim (body ++ after)).head?, c = '*')
    (hsemicolon : ';' ∉ body) (hfeed : '\n' ∉ body) (ha : IsMargin after) (hc : IsComment comment) :
    parse? (before ++ (mark label ++ (gap ++ (body ++ after))) ++ comment) =
      (statement? (Text.trim (body ++ after))).map (⟨label, ·⟩) := by
  have htrim : Text.trim (gap ++ (body ++ after)) = Text.trim (body ++ after) :=
    Text.trim_append_left hg.blank
  have hsplit : splitLabel (Text.trim (body ++ after)) = (none, Text.trim (body ++ after)) := by
    apply splitLabel_of_none
    cases hu : Text.trim (body ++ after) with
    | nil => rfl
    | cons c u =>
      rw [hu] at hbody
      obtain rfl : c = '*' := hbody c rfl
      rfl
  rw [← htrim]
  refine parse?_append hb.blank (isWordChar_label hl) (fun _ ↦ htrim ▸ hsplit) ?_ ?_ hc
  · exact List.not_mem_append hg.semicolon_not_mem
      (List.not_mem_append hsemicolon ha.semicolon_not_mem)
  · exact List.not_mem_append hg.feed_not_mem (List.not_mem_append hfeed ha.feed_not_mem)

theorem parse?_relocate {label : Option Text} {before gap g g' target after comment : Text}
    (hb : IsMargin before) (hl : ∀ name, label = some name → Pattern.Word name)
    (hg : IsMargin gap) (hmargin : IsMargin g) (hmargin' : IsMargin g') (ht : IsTarget target)
    (ha : IsMargin after) (hc : IsComment comment) :
    parse? (before ++ (mark label ++ (gap ++ ('*' :: (g ++ '=' :: (g' ++ target)) ++ after))) ++
      comment) = some ⟨label, .relocate target⟩ := by
  have hfree (c : Char) (hstar : c ≠ '*') (heq : c ≠ '=') (hg : c ∉ g) (hg' : c ∉ g')
      (ht : c ∉ target) : c ∉ '*' :: (g ++ '=' :: (g' ++ target)) := by
    simp [hstar, heq, hg, hg', ht]
  have hsemicolon := hfree ';' (by decide) (by decide) hmargin.semicolon_not_mem
    hmargin'.semicolon_not_mem (not_mem_of_isSolid ht.isSolid (by decide))
  have hfeed := hfree '\n' (by decide) (by decide) hmargin.feed_not_mem hmargin'.feed_not_mem
    (not_mem_of_isSolid ht.isSolid (by decide))
  have hrelocation := relocation?_trim hmargin hmargin' ht ha
  obtain ⟨u, hu⟩ : ∃ u, Text.trim ('*' :: (g ++ '=' :: (g' ++ target)) ++ after) = '*' :: u :=
    ⟨_, Text.trim_cons (by decide)⟩
  have hhead : ∀ c ∈ ('*' :: u).head?, c = '*' := by
    rintro c ⟨⟩
    rfl
  rw [parse?_wordless hb hl hg (hu ▸ hhead) hsemicolon hfeed ha hc]
  rw [hu] at hrelocation ⊢
  rw [statement?, if_neg (List.cons_ne_nil _ _), hrelocation]
  rfl

theorem parse?_of_spells (h : Spells l line) : parse? line = some l := by
  obtain ⟨hb, hl, hg, hs, ha, hc⟩ := h
  rename_i label st before gap body after comment
  cases hs with
  | empty =>
    have htrim : Text.trim ([] ++ after) = [] := Text.trim_of_blanks ha.blank
    have hhead : ∀ c ∈ (Text.trim ([] ++ after)).head?, c = '*' := by
      rw [htrim]
      exact nofun
    rw [parse?_wordless hb hl hg hhead List.not_mem_nil List.not_mem_nil ha hc, htrim]
    rfl
  | relocate hmargin hmargin' ht => exact parse?_relocate hb hl hg hmargin hmargin' ht ha hc
  | bytes hw hbytes ht =>
    rw [parse?_word hb hl hg hw ht ha hc, worded_eq_bytes hbytes]
  | instruction hw hbytes ht =>
    rw [parse?_word hb hl hg hw ht ha hc, worded_eq_instruction hbytes]

theorem spells_of_relocation? {target : Text} (h : relocation? t = some target) (hfeed : '\n' ∉ t) :
    Statement.Spells (.relocate target) t := by
  unfold relocation? at h
  split at h
  · rename_i rest
    split at h
    · rename_i target' hrest
      split at h
      · rename_i ht
        cases h
        have hrest' : rest = rest.takeWhile Text.isBlank ++ '=' ::
            (target'.takeWhile Text.isBlank ++ Text.skip target') := by
          rw [Text.takeWhile_append_skip, ← hrest, Text.takeWhile_append_skip]
        have hgap : IsMargin (rest.takeWhile Text.isBlank) :=
          isMargin_takeWhile fun hm ↦ hfeed (List.mem_cons_of_mem _ hm)
        have hgap' : IsMargin (target'.takeWhile Text.isBlank) := by
          refine isMargin_takeWhile fun hm ↦ hfeed (List.mem_cons_of_mem _ ?_)
          exact Text.mem_of_mem_skip (hrest ▸ List.mem_cons_of_mem _ hm)
        rw [hrest']
        exact .relocate hgap hgap' (isTarget_iff.2 ht)
      · cases h
    · cases h
  · cases h

theorem tail_of_words? {word operand : Text} (h : words? t = some (word, operand))
    (hsemicolon : ';' ∉ t) (hfeed : '\n' ∉ t) (hlast : ∀ c ∈ t.getLast?, Text.isBlank c = false) :
    Pattern.Word word ∧ ∃ tail, t = word ++ tail ∧ Tail (operand.filter (· ≠ ' ')) tail := by
  have ht : t.takeWhile Text.isWordChar ++ t.dropWhile Text.isWordChar = t :=
    List.takeWhile_append_dropWhile
  unfold words? at h
  dsimp only at h
  split at h
  · cases h
  · rename_i hword
    rw [not_or] at hword
    have hw : Pattern.Word (t.takeWhile Text.isWordChar) :=
      Pattern.word_of_isWordChar hword.1 fun c hc ↦ List.mem_takeWhile_imp hc
    split at h
    · rename_i hrest
      cases h
      exact ⟨hw, [], hrest ▸ ht.symm, .nil⟩
    · rename_i c rest hrest
      split at h
      · rename_i hc
        cases h
        refine ⟨hw, _, ht.symm, ?_⟩
        have hmem {d : Char} (hd : d ∈ c :: rest) : d ∈ t :=
          (List.dropWhile_suffix _).subset (hrest ▸ hd)
        have hne : (c :: rest).takeWhile Text.isBlank ≠ [] := by
          rw [List.takeWhile_cons_of_pos hc]
          exact List.cons_ne_nil _ _
        have hoperand : IsOperandText (Text.skip (c :: rest)) := by
          constructor
          case semicolon => exact fun hm ↦ hsemicolon (hmem (Text.mem_of_mem_skip hm))
          case feed => exact fun hm ↦ hfeed (hmem (Text.mem_of_mem_skip hm))
          case head => exact Text.head?_skip _
          case last =>
            -- The operand, if there is one, ends where the line ends.
            intro d hd
            apply hlast d
            rw [← ht, hrest, ← Text.takeWhile_append_skip (c :: rest), ← List.append_assoc]
            exact List.mem_getLast?_append_of_mem_getLast? hd
        have htail := Tail.operand (isMargin_takeWhile fun hm ↦ hfeed (hmem hm)) hne hoperand
        rwa [Text.takeWhile_append_skip, ← hrest] at htail
      · cases h

theorem spells_of_statement? (h : statement? t = some st) (hsemicolon : ';' ∉ t)
    (hfeed : '\n' ∉ t) (hlast : ∀ c ∈ t.getLast?, Text.isBlank c = false) : st.Spells t := by
  unfold statement? at h
  split at h
  · rename_i ht
    cases h
    exact ht ▸ .empty
  · split at h
    · rename_i target htarget
      cases h
      exact spells_of_relocation? htarget hfeed
    · obtain ⟨⟨word, operand⟩, hwords, rfl⟩ := Option.map_eq_some_iff.1 h
      obtain ⟨hw, tail, rfl, htail⟩ := tail_of_words? hwords hsemicolon hfeed hlast
      dsimp only
      split
      · rename_i hb
        exact .bytes hw hb htail
      · rename_i hb
        exact .instruction hw hb htail

theorem eq_mark_of_splitLabel {label : Option Text} (h : splitLabel t = (label, rest)) :
    label = none ∧ rest = t ∨ ∃ name behind, label = some name ∧ Pattern.Word name ∧
      t = name ++ ':' :: behind ∧ rest = Text.trim behind := by
  unfold splitLabel at h
  split at h
  · rename_i behind hbehind
    split at h
    · rename_i hname
      cases h
      refine .inr ⟨_, behind, rfl, ?_, ?_, rfl⟩
      · exact Pattern.word_of_isWordChar hname.1 fun c hc ↦ List.mem_takeWhile_imp hc
      · rw [← hbehind, List.takeWhile_append_dropWhile]
    · cases h
      exact .inl ⟨rfl, rfl⟩
  · cases h
    exact .inl ⟨rfl, rfl⟩

theorem spells_of_parse? (h : parse? line = some l) (hfeed : '\n' ∉ line) : Spells l line := by
  obtain ⟨u, comment, rfl, hsemicolon, hc⟩ := exists_comment line
  have hfeed' : '\n' ∉ u := fun hm ↦ hfeed (List.mem_append_left _ hm)
  have hcode : code (u ++ comment) = Text.trim u := @code_append [] comment u nofun hsemicolon hc
  obtain ⟨before, after, hb, ha, hu⟩ := exists_margins hfeed'
  unfold parse? at h
  rw [hcode] at h
  rcases hsplit : splitLabel (Text.trim u) with ⟨label, rest⟩
  rw [hsplit] at h
  obtain ⟨st, hst, rfl⟩ := Option.map_eq_some_iff.1 h
  obtain ⟨rfl, rfl⟩ | ⟨name, behind, rfl, hname, hmark, rfl⟩ := eq_mark_of_splitLabel hsplit
  · have hs : st.Spells (Text.trim u) :=
      spells_of_statement? hst (fun hm ↦ hsemicolon (Text.mem_of_mem_trim hm))
        (fun hm ↦ hfeed' (Text.mem_of_mem_trim hm)) (Text.getLast?_trim u)
    have hspells := spells_unlabelled hb hs ha hc
    rwa [← hu] at hspells
  · have hbehind {c : Char} (hm : c ∈ behind) : c ∈ u :=
      Text.mem_of_mem_trim (hmark ▸ List.mem_append_right _ (List.mem_cons_of_mem _ hm))
    have hs : st.Spells (Text.trim behind) :=
      spells_of_statement? hst (fun hm ↦ hsemicolon (hbehind (Text.mem_of_mem_trim hm)))
        (fun hm ↦ hfeed' (hbehind (Text.mem_of_mem_trim hm))) (Text.getLast?_trim behind)
    obtain ⟨gap, after', hg, ha', hrest⟩ := exists_margins fun hm ↦ hfeed' (hbehind hm)
    have hlabel : ∀ n, some name = some n → Pattern.Word n := by
      rintro n ⟨⟩
      exact hname
    have hspells := Spells.mk hb hlabel hg hs (ha'.append ha) hc
    have hwhole : u =
        before ++ (mark (some name) ++ (gap ++ (Text.trim behind ++ (after' ++ after)))) := by
      calc u = before ++ (name ++ ':' :: behind ++ after) := hmark ▸ hu
        _ = before ++ (name ++ ':' :: (gap ++ (Text.trim behind ++ after')) ++ after) := by
          rw [← hrest]
        _ = _ := by simp [mark]
    rwa [← hwhole] at hspells

/-- Whatever is written as a line is read back as it was meant, and nothing else can be read. A line
that nothing is written as is malformed. -/
theorem reads_as_spelled (line : Text) :
    (∀ l, Spells l line → parse? line = some l) ∧
      ('\n' ∉ line → ∀ l, parse? line = some l → Spells l line) ∧
      (parse? line = none → (∀ l, ¬ Spells l line) ∧ ∀ number pc symbols,
        Pass.commit.line number pc symbols line = .error .malformed) := by
  refine ⟨fun l ↦ parse?_of_spells, fun hfeed l h ↦ spells_of_parse? h hfeed, fun hnone ↦ ?_⟩
  refine ⟨fun l h ↦ ?_, fun number pc symbols ↦ Pass.line_commit_of_none hnone⟩
  rw [parse?_of_spells h] at hnone
  cases hnone

def full : Text := "loop:\tlda ($10), y ; *=".toList

def joined : Text := "loop: LDA#$01".toList

theorem reads_as_spelled_full :
    Spells ⟨some "loop".toList, .instruction "LDA".toList "($10),y".toList⟩ full ∧
      parse? full = some ⟨some "loop".toList, .instruction "LDA".toList "($10),y".toList⟩ ∧
      parse? joined = none ∧ ∀ l, ¬ Spells l joined := by
  have hspells := (reads_as_spelled full).2.1 (by decide +kernel)
    ⟨some "loop".toList, .instruction "LDA".toList "($10),y".toList⟩ (by decide +kernel)
  have hnone : parse? joined = none := by decide +kernel
  exact ⟨hspells, (reads_as_spelled full).1 _ hspells, hnone,
    ((reads_as_spelled joined).2.2 hnone).1⟩

end Line

end Micro6502
