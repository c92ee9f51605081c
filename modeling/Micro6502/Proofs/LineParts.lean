import Mathlib.Data.List.DropRight
import Micro6502.Source.Line
import Micro6502.Proofs.Text

namespace Micro6502

namespace Text

variable {b t u word : Text} {c : Char}

def trimEnd (t : Text) : Text := t.rdropWhile isBlank

theorem skip_append (hb : ∀ c ∈ b, isBlank c = true) : skip (b ++ t) = skip t :=
  List.dropWhile_append_of_pos hb

theorem skip_eq_nil (hb : ∀ c ∈ b, isBlank c = true) : skip b = [] :=
  List.dropWhile_eq_nil_iff.2 hb

theorem skip_cons (hc : isBlank c = false) : skip (c :: t) = c :: t :=
  skip_eq_self fun _ hd ↦ Option.some.inj hd ▸ hc

theorem trimEnd_append (hb : ∀ c ∈ b, isBlank c = true) : trimEnd (t ++ b) = trimEnd t := by
  have hrev : ∀ c ∈ b.reverse, isBlank c = true := fun c hc ↦ hb c (List.mem_reverse.1 hc)
  rw [trimEnd, List.rdropWhile, List.reverse_append, List.dropWhile_append_of_pos hrev]
  rfl

theorem trimEnd_trimEnd (t : Text) : trimEnd (trimEnd t) = trimEnd t :=
  List.rdropWhile_idempotent _ _

theorem trimEnd_append_cons (hc : isBlank c = false) :
    trimEnd (t ++ c :: u) = t ++ c :: trimEnd u := by
  unfold trimEnd
  induction u using List.reverseRecOn with
  | nil => exact List.rdropWhile_concat_neg _ _ _ (by simp [hc])
  | append_singleton u d ih =>
    have hassoc : t ++ c :: (u ++ [d]) = (t ++ c :: u) ++ [d] := by simp
    rw [hassoc, List.rdropWhile_concat, List.rdropWhile_concat, ih]
    split
    · rfl
    · exact hassoc.symm

theorem trim_append_left (hb : ∀ c ∈ b, isBlank c = true) : trim (b ++ t) = trim t := by
  rw [trim, skip_append hb, trim]

theorem exists_trimEnd (t : Text) :
    ∃ b, (∀ c ∈ b, isBlank c = true) ∧ t = trimEnd t ++ b := by
  refine ⟨(t.reverse.takeWhile isBlank).reverse, fun c hc ↦ ?_, ?_⟩
  · exact List.mem_takeWhile_imp (List.mem_reverse.1 hc)
  · rw [trimEnd, List.rdropWhile, ← List.reverse_append, List.takeWhile_append_dropWhile,
      List.reverse_reverse]

theorem mem_head?_of_trimEnd (h : c ∈ (trimEnd t).head?) : c ∈ t.head? := by
  obtain ⟨b, -, hb⟩ := exists_trimEnd t
  rw [hb]
  exact List.mem_head?_append_of_mem_head? h

theorem exists_skip (t : Text) : (∀ c ∈ t, isBlank c = true) ∨
    ∃ b c u, t = b ++ c :: u ∧ (∀ c ∈ b, isBlank c = true) ∧ isBlank c = false := by
  cases hs : skip t with
  | nil => exact .inl (List.dropWhile_eq_nil_iff.1 hs)
  | cons c u =>
    have hc : isBlank c = false := by
      have hhead := List.head?_dropWhile_not isBlank t
      rw [show t.dropWhile isBlank = c :: u from hs] at hhead
      exact hhead
    refine .inr ⟨t.takeWhile isBlank, c, u, ?_, fun c hc ↦ List.mem_takeWhile_imp hc, hc⟩
    rw [← hs]
    exact (List.takeWhile_append_dropWhile).symm

theorem trim_of_blanks (hb : ∀ c ∈ b, isBlank c = true) : trim b = [] := by
  rw [trim, skip_eq_nil hb]
  rfl

theorem trim_cons (hc : isBlank c = false) : trim (c :: t) = c :: trimEnd t := by
  rw [trim, skip_cons hc]
  exact trimEnd_append_cons (t := []) hc

theorem skip_trimEnd (t : Text) : skip (trimEnd t) = trim t := by
  obtain hb | ⟨b, c, u, rfl, hb, hc⟩ := exists_skip t
  · have hend : trimEnd t = [] := trimEnd_append (t := []) hb
    rw [hend, trim_of_blanks hb]
    rfl
  · rw [trimEnd_append_cons hc, skip_append hb, skip_cons hc, trim_append_left hb, trim_cons hc]

theorem trim_trimEnd (t : Text) : trim (trimEnd t) = trim t := by
  obtain hb | ⟨b, c, u, rfl, hb, hc⟩ := exists_skip t
  · have hend : trimEnd t = [] := trimEnd_append (t := []) hb
    rw [hend, trim_of_blanks hb]
    rfl
  · rw [trimEnd_append_cons hc, trim_append_left hb, trim_append_left hb, trim_cons hc,
      trim_cons hc, trimEnd_trimEnd]

theorem trim_trim (t : Text) : trim (trim t) = trim t := by
  obtain hb | ⟨b, c, u, rfl, hb, hc⟩ := exists_skip t
  · rw [trim_of_blanks hb]
    rfl
  · rw [trim_append_left hb, trim_cons hc, trim_cons hc, trimEnd_trimEnd]

theorem trim_append_right (hb : ∀ c ∈ b, isBlank c = true) : trim (t ++ b) = trim t := by
  rw [← trim_trimEnd, trimEnd_append hb, trim_trimEnd]

theorem exists_trim (t : Text) : ∃ b, (∀ c ∈ b, isBlank c = true) ∧
    t = t.takeWhile isBlank ++ (trim t ++ b) := by
  obtain ⟨b, hb, hskip⟩ := exists_trimEnd (skip t)
  refine ⟨b, hb, ?_⟩
  have htrim : skip t = trim t ++ b := hskip
  rw [← htrim]
  exact (List.takeWhile_append_dropWhile).symm

/-- Blanks at the ends that do not count need not be dropped. -/
theorem filter_trim {q : Char → Bool} (h : ∀ c ∈ t.filter q, isBlank c = false) :
    (trim t).filter q = t.filter q := by
  obtain ⟨b, hb, ht⟩ := exists_trim t
  have hnil : ∀ u : Text, (∀ c ∈ u, c ∈ t ∧ isBlank c = true) → u.filter q = [] := by
    intro u hu
    refine List.filter_eq_nil_iff.2 fun c hc hq ↦ ?_
    obtain ⟨hct, hblank⟩ := hu c hc
    exact Bool.false_ne_true ((h c (List.mem_filter.2 ⟨hct, hq⟩)).symm.trans hblank)
  have hbefore := hnil (t.takeWhile isBlank)
    fun c hc ↦ ⟨(List.takeWhile_prefix _).subset hc, List.mem_takeWhile_imp hc⟩
  have hbehind := hnil b fun c hc ↦
    ⟨ht ▸ List.mem_append_right _ (List.mem_append_right _ hc), hb c hc⟩
  have hfilter := congrArg (List.filter q) ht
  rw [List.filter_append, List.filter_append, hbefore, hbehind, List.nil_append,
    List.append_nil] at hfilter
  exact hfilter.symm

theorem trim_word_append (hw : ∀ c ∈ word, isWordChar c = true) (hne : word ≠ []) :
    trim (word ++ t) = word ++ trimEnd t := by
  obtain ⟨c, word, rfl⟩ := List.exists_cons_of_ne_nil hne
  have hc := isBlank_of_isWordChar (hw c List.mem_cons_self)
  rw [List.cons_append, trim_cons hc]
  obtain rfl | ⟨word, d, rfl⟩ := List.eq_nil_or_concat' word
  · rfl
  · have hd : isBlank d = false := isBlank_of_isWordChar (hw d (by simp))
    rw [List.append_assoc, List.singleton_append, trimEnd_append_cons hd]
    simp

end Text

namespace Line

variable {before comment word tail u : Text} {label : Option Text}

def mark : Option Text → Text
  | none => []
  | some name => name ++ [':']

def IsComment (t : Text) : Prop := t = [] ∨ ∃ rest, t = ';' :: rest

theorem code_append (hb : ∀ c ∈ before, Text.isBlank c = true) (hu : ';' ∉ u)
    (hc : IsComment comment) : code (before ++ u ++ comment) = Text.trim u := by
  have hsolid : ∀ c ∈ before ++ u, decide (c ≠ ';') = true := by
    intro c hc
    refine decide_eq_true ?_
    rintro rfl
    obtain hm | hm := List.mem_append.1 hc
    · exact absurd (hb _ hm) (by decide)
    · exact hu hm
  have htake : comment.takeWhile (· ≠ ';') = [] := by
    obtain rfl | ⟨rest, rfl⟩ := hc
    · rfl
    · rfl
  rw [code, List.takeWhile_append_of_pos hsolid, htake, List.append_nil, Text.trim_append_left hb]

theorem exists_comment (line : Text) :
    ∃ u comment, line = u ++ comment ∧ ';' ∉ u ∧ IsComment comment := by
  refine ⟨line.takeWhile (· ≠ ';'), line.dropWhile (· ≠ ';'), ?_, ?_, ?_⟩
  · exact (List.takeWhile_append_dropWhile).symm
  · exact fun hm ↦ absurd (List.mem_takeWhile_imp hm) (by decide)
  · have hhead := List.head?_dropWhile_not (fun c : Char ↦ decide (c ≠ ';')) line
    cases hd : line.dropWhile (· ≠ ';') with
    | nil => exact .inl rfl
    | cons c rest =>
      rw [hd] at hhead
      obtain rfl : c = ';' := by simpa using hhead
      exact .inr ⟨rest, rfl⟩

theorem splitLabel_mark {name : Text} (hw : ∀ c ∈ name, Text.isWordChar c = true) (hne : name ≠ [])
    (hu : '\n' ∉ u) : splitLabel (name ++ ':' :: u) = (some name, Text.trim u) := by
  have htake : (name ++ ':' :: u).takeWhile Text.isWordChar = name := by
    rw [List.takeWhile_append_of_pos hw, List.takeWhile_cons_of_neg (by decide), List.append_nil]
  have hdrop : (name ++ ':' :: u).dropWhile Text.isWordChar = ':' :: u := by
    rw [List.dropWhile_append_of_pos hw, List.dropWhile_cons_of_neg (by decide)]
  have hfeed : '\n' ∉ Text.skip u := fun hm ↦ hu (Text.mem_of_mem_skip hm)
  simp only [splitLabel, htake, hdrop]
  rw [if_pos ⟨hne, hfeed⟩]

theorem splitLabel_of_none {t : Text} (h : (splitLabel t).1 = none) : splitLabel t = (none, t) := by
  unfold splitLabel at h ⊢
  split at h
  · split at h
    · cases h
    · rename_i hn
      rw [if_neg hn]
  · rfl

theorem mem_code {c : Char} {line : Text} (h : c ∈ code line) : c ∈ line ∧ c ≠ ';' := by
  have hm : c ∈ line.takeWhile (· ≠ ';') := Text.mem_of_mem_trim h
  have hsemicolon := List.mem_takeWhile_imp (p := fun d : Char ↦ decide (d ≠ ';')) hm
  exact ⟨(List.takeWhile_prefix _).subset hm, of_decide_eq_true hsemicolon⟩

/-- How a line is read that consists of blanks, a label, a statement among blanks and a comment. -/
theorem parse?_append (hb : ∀ c ∈ before, Text.isBlank c = true)
    (hlabel : ∀ name, label = some name → (∀ c ∈ name, Text.isWordChar c = true) ∧ name ≠ [])
    (hsplit : label = none → splitLabel (Text.trim u) = (none, Text.trim u))
    (hu : ';' ∉ u) (hn : '\n' ∉ u) (hc : IsComment comment) :
    parse? (before ++ (mark label ++ u) ++ comment) =
      (statement? (Text.trim u)).map (⟨label, ·⟩) := by
  cases label with
  | none =>
    have hcode : code (before ++ (mark none ++ u) ++ comment) = Text.trim u := code_append hb hu hc
    rw [parse?, hcode, hsplit rfl]
  | some name =>
    obtain ⟨hw, hne⟩ := hlabel name rfl
    have hmark : ';' ∉ mark (some name) ++ u := by
      rw [List.mem_append, not_or]
      refine ⟨fun hm ↦ ?_, hu⟩
      rw [mark, List.mem_append, List.mem_singleton] at hm
      obtain hm | hm := hm
      · exact absurd (hw _ hm) (by decide)
      · exact absurd hm (by decide)
    have hcode : code (before ++ (mark (some name) ++ u) ++ comment) =
        name ++ ':' :: Text.trimEnd u := by
      rw [code_append hb hmark hc, mark, List.append_assoc, List.singleton_append,
        Text.trim_word_append hw hne]
      exact congrArg (name ++ ·) (Text.trimEnd_append_cons (t := []) (by decide))
    have hend : '\n' ∉ Text.trimEnd u := fun hm ↦ hn ((List.rdropWhile_prefix _ _).subset hm)
    rw [parse?, hcode, splitLabel_mark hw hne hend, Text.trim_trimEnd]

/-- The operand that stands behind a mnemonic. Spaces in it do not count. -/
def operandText? (tail : Text) : Option Text :=
  if '\n' ∈ Text.skip tail then none
  else
    match tail with
    | [] => some []
    | c :: _ => if Text.isBlank c then some ((Text.skip tail).filter (· ≠ ' ')) else none

def worded (word operand : Text) : Statement :=
  if Text.capitals word = bytesWord then .bytes operand
  else .instruction (Text.capitals word) operand

variable (hw : ∀ c ∈ word, Text.isWordChar c = true) (hne : word ≠ [])
  (ht : ∀ c ∈ tail.head?, Text.isWordChar c = false)

include hw ht in
theorem takeWhile_word_append : (word ++ tail).takeWhile Text.isWordChar = word := by
  rw [List.takeWhile_append_of_pos hw]
  cases tail with
  | nil => exact List.append_nil word
  | cons c t => rw [List.takeWhile_cons_of_neg (by simp [ht c rfl]), List.append_nil]

include hw ht in
theorem dropWhile_word_append : (word ++ tail).dropWhile Text.isWordChar = tail := by
  rw [List.dropWhile_append_of_pos hw]
  cases tail with
  | nil => rfl
  | cons c t => exact List.dropWhile_cons_of_neg (by simp [ht c rfl])

include hw ht in
theorem splitLabel_word_append (hcolon : ∀ c ∈ tail.head?, c ≠ ':') :
    splitLabel (word ++ tail) = (none, word ++ tail) := by
  rw [splitLabel, dropWhile_word_append hw ht]
  cases tail with
  | nil => rfl
  | cons c t =>
    split
    · rename_i hc
      exact absurd (List.cons.inj hc).1 (hcolon c rfl)
    · rfl

include hw hne ht in
theorem statement?_word_append :
    statement? (word ++ tail) = (operandText? tail).map (worded word) := by
  have hnil : word ++ tail ≠ [] := List.append_ne_nil_of_left_ne_nil hne tail
  have hrelocation : relocation? (word ++ tail) = none := by
    obtain ⟨c, word, rfl⟩ := List.exists_cons_of_ne_nil hne
    have hc : c ≠ '*' := by
      rintro rfl
      exact absurd (hw _ List.mem_cons_self) (by decide)
    simp [relocation?, hc]
  rw [statement?, if_neg hnil, hrelocation]
  simp only [instruction?, words?, takeWhile_word_append hw ht, dropWhile_word_append hw ht, hne,
    false_or, operandText?]
  by_cases hfeed : '\n' ∈ Text.skip tail
  · rw [if_pos hfeed, if_pos hfeed]
    rfl
  · rw [if_neg hfeed, if_neg hfeed]
    cases tail with
    | nil => rfl
    | cons c t =>
      by_cases hc : Text.isBlank c = true
      · simp only [if_pos hc, Option.map_some]
        rfl
      · simp only [if_neg hc, Option.map_none]

theorem parse?_word_append {gap : Text} (hb : ∀ c ∈ before, Text.isBlank c = true)
    (hlabel : ∀ name, label = some name → (∀ c ∈ name, Text.isWordChar c = true) ∧ name ≠ [])
    (hg : ∀ c ∈ gap, Text.isBlank c = true ∧ c ≠ '\n')
    (hw : ∀ c ∈ word, Text.isWordChar c = true) (hne : word ≠ [])
    (ht : ∀ c ∈ tail.head?, Text.isWordChar c = false ∧ c ≠ ':') (hu : ';' ∉ tail)
    (hn : '\n' ∉ tail) (hc : IsComment comment) :
    parse? (before ++ (mark label ++ (gap ++ (word ++ (tail ++ comment))))) =
      ((operandText? (Text.trimEnd tail)).map (worded word)).map (⟨label, ·⟩) := by
  have hassoc : before ++ (mark label ++ (gap ++ (word ++ (tail ++ comment)))) =
      before ++ (mark label ++ (gap ++ (word ++ tail))) ++ comment := by simp
  have htrim : Text.trim (gap ++ (word ++ tail)) = word ++ Text.trimEnd tail := by
    rw [Text.trim_append_left fun c hm ↦ (hg c hm).1, Text.trim_word_append hw hne]
  have hhead : ∀ c ∈ (Text.trimEnd tail).head?, Text.isWordChar c = false ∧ c ≠ ':' :=
    fun c hm ↦ ht c (Text.mem_head?_of_trimEnd hm)
  have hsemicolon : ';' ∉ gap ++ (word ++ tail) := by
    rw [List.mem_append, List.mem_append, not_or, not_or]
    exact ⟨fun hm ↦ absurd (hg _ hm).1 (by decide), fun hm ↦ absurd (hw _ hm) (by decide), hu⟩
  have hfeed : '\n' ∉ gap ++ (word ++ tail) := by
    rw [List.mem_append, List.mem_append, not_or, not_or]
    exact ⟨fun hm ↦ (hg _ hm).2 rfl, fun hm ↦ absurd (hw _ hm) (by decide), hn⟩
  have hsplit : splitLabel (word ++ Text.trimEnd tail) = (none, word ++ Text.trimEnd tail) :=
    splitLabel_word_append hw (fun c hm ↦ (hhead c hm).1) fun c hm ↦ (hhead c hm).2
  rw [hassoc, parse?_append hb hlabel (fun _ ↦ htrim ▸ hsplit) hsemicolon hfeed hc, htrim,
    statement?_word_append hw hne fun c hm ↦ (hhead c hm).1]

theorem statement?_trim_append {b t o : Text} {c : Char}
    (hw : ∀ d ∈ word, Text.isWordChar d = true) (hne : word ≠ [])
    (hb : ∀ d ∈ c :: b, Text.isBlank d = true) (hfeed : '\n' ∉ t)
    (ht : t.filter (· ≠ ' ') = o) (ho : ∀ d ∈ o, Text.isBlank d = false) (hsolid : o ≠ []) :
    statement? (Text.trim (word ++ (c :: b ++ t))) = some (worded word o) ∧
      splitLabel (Text.trim (word ++ (c :: b ++ t))) =
        (none, Text.trim (word ++ (c :: b ++ t))) := by
  have hc := hb c List.mem_cons_self
  have hcw := Text.isWordChar_of_isBlank hc
  -- What is no blank stands somewhere behind the first one, so that this one stays.
  obtain ⟨u, hu⟩ : ∃ u, Text.trimEnd (c :: b ++ t) = c :: u := by
    obtain hblank | ⟨p, d, q, rfl, -, hd⟩ := Text.exists_skip t
    · obtain ⟨e, he⟩ := List.exists_mem_of_ne_nil o hsolid
      have het : e ∈ t := (List.mem_filter.1 (ht ▸ he)).1
      exact absurd ((ho e he).symm.trans (hblank e het)) nofun
    · rw [← List.append_assoc, Text.trimEnd_append_cons hd]
      exact ⟨_, rfl⟩
  have hskip : Text.skip (c :: u) = Text.trim t := by
    rw [← hu, Text.skip_trimEnd, Text.trim_append_left hb]
  have hhead : ∀ d ∈ (c :: u).head?, Text.isWordChar d = false := by
    rintro d ⟨⟩
    exact hcw
  have hoperand : operandText? (c :: u) = some o := by
    have hfilter : (Text.trim t).filter (· ≠ ' ') = o := by
      rw [Text.filter_trim (ht.symm ▸ ho), ht]
    rw [operandText?, hskip, if_neg fun hm ↦ hfeed (Text.mem_of_mem_trim hm), hfilter]
    exact if_pos hc
  rw [Text.trim_word_append hw hne, hu, statement?_word_append hw hne hhead, hoperand]
  refine ⟨rfl, splitLabel_word_append hw hhead ?_⟩
  rintro d ⟨⟩ rfl
  exact absurd hc (by decide)

end Line

end Micro6502
