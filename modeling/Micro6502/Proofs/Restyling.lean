import Micro6502.Proofs.LineParts
import Micro6502.Proofs.Rewording

namespace Micro6502

namespace Text

variable {t u : Text}

theorem isWordChar_of_capitals (h : capitals u = capitals t)
    (ht : ∀ c ∈ t, isWordChar c = true) : ∀ c ∈ u, isWordChar c = true := by
  intro c hc
  have hmem : c.toUpper ∈ capitals t := by
    rw [← h]
    exact List.mem_map_of_mem hc
  obtain ⟨d, hd, hdc⟩ := List.mem_map.1 hmem
  rw [← isWordChar_toUpper, ← hdc, isWordChar_toUpper]
  exact ht d hd

theorem ne_nil_of_capitals (h : capitals u = capitals t) (ht : t ≠ []) : u ≠ [] := by
  rintro rfl
  exact ht (List.map_eq_nil_iff.1 h.symm)

end Text

namespace Line

def IsMargin (t : Text) : Prop := ∀ c ∈ t, Text.isBlank c = true ∧ c ≠ '\n'

instance (t : Text) : Decidable (IsMargin t) := List.decidableBAll _ t

/-- A line and the same line with its mnemonic in other capitals. The mnemonic may stand behind
blanks and a label, and no character of a word or colon follows it at once. -/
inductive Recased : Text → Text → Prop
  | same (line : Text) : Recased line line
  | mnemonic {before gap word word' rest : Text} {label : Option Text} (hb : IsMargin before)
      (hl : ∀ name, label = some name → (∀ c ∈ name, Text.isWordChar c = true) ∧ name ≠ [])
      (hg : IsMargin gap) (hw : ∀ c ∈ word, Text.isWordChar c = true) (hne : word ≠ [])
      (hcase : Text.capitals word' = Text.capitals word)
      (hr : ∀ c ∈ rest.head?, Text.isWordChar c = false ∧ c ≠ ':') :
      Recased (before ++ (mark label ++ (gap ++ (word ++ rest))))
        (before ++ (mark label ++ (gap ++ (word' ++ rest))))

/-- A line and the same line with its mnemonic in other capitals, between blanks and before a
comment. -/
inductive Restyled : Text → Text → Prop
  | mk {line line' before after comment : Text} (hline : Recased line line')
      (hb : IsMargin before) (ha : IsMargin after) (hc : IsComment comment) (hn : '\n' ∉ comment) :
      Restyled line (before ++ (line' ++ after) ++ comment)

variable {line line' before after comment u : Text}

theorem parse?_congr (h : code line' = code line) : parse? line' = parse? line := by
  rw [parse?, parse?, h]

theorem code_restyle (hb : IsMargin before) (ha : IsMargin after) (hc : IsComment comment) :
    code (before ++ (line ++ after) ++ comment) = code line := by
  have hb' : ∀ c ∈ before, Text.isBlank c = true := fun c hm ↦ (hb c hm).1
  have ha' : ∀ c ∈ after, Text.isBlank c = true := fun c hm ↦ (ha c hm).1
  obtain ⟨u, k, rfl, hu, hk⟩ := exists_comment line
  have hcode : code (u ++ k) = Text.trim u := @code_append [] k u nofun hu hk
  rw [hcode]
  obtain rfl | ⟨rest, rfl⟩ := hk
  · have hsolid : ';' ∉ u ++ after := by
      rw [List.mem_append, not_or]
      exact ⟨hu, fun hm ↦ absurd (ha' _ hm) (by decide)⟩
    rw [List.append_nil, code_append hb' hsolid hc, Text.trim_append_right ha']
  · -- The line has a comment already, which goes on in the new one.
    have hassoc : before ++ (u ++ ';' :: rest ++ after) ++ comment =
        before ++ u ++ (';' :: (rest ++ (after ++ comment))) := by simp
    rw [hassoc]
    exact code_append hb' hu (.inr ⟨_, rfl⟩)

theorem parse?_chomp (line : Text) : parse? (Text.chomp line) = parse? line := by
  by_cases h : line.getLast? = some '\r'
  · obtain ⟨t, rfl⟩ := List.getLast?_eq_some_iff.1 h
    have hmargin : IsMargin ['\r'] := by decide
    have hcode : code (t ++ ['\r']) = code t := by
      have hrestyle : code ([] ++ (t ++ ['\r']) ++ []) = code t :=
        code_restyle nofun hmargin (.inl rfl)
      rwa [List.nil_append, List.append_nil] at hrestyle
    rw [Text.chomp_append_return, parse?_congr hcode]
  · rw [Text.chomp, if_neg h]

theorem Recased.parse?_eq (h : Recased line line') (hn : '\n' ∉ line) :
    parse? line' = parse? line := by
  cases h with
  | same => rfl
  | @mnemonic before gap word word' rest label hb hl hg hw hne hcase hr =>
    have hw' := Text.isWordChar_of_capitals hcase hw
    have hne' := Text.ne_nil_of_capitals hcase hne
    have hbefore : ∀ c ∈ before, Text.isBlank c = true := fun c hm ↦ (hb c hm).1
    obtain ⟨tail, comment, rfl, htail, hcomment⟩ := exists_comment rest
    have hfeed : '\n' ∉ tail := by
      simp only [List.mem_append, not_or] at hn
      exact hn.2.2.2.2.1
    have hhead : ∀ c ∈ tail.head?, Text.isWordChar c = false ∧ c ≠ ':' := fun c hm ↦
      hr c (List.mem_head?_append_of_mem_head? hm)
    have hworded : worded word' = worded word := by
      funext operand
      rw [worded, worded, hcase]
    rw [parse?_word_append hbefore hl hg hw hne hhead htail hfeed hcomment, ← hworded]
    exact parse?_word_append hbefore hl hg hw' hne' hhead htail hfeed hcomment

theorem Restyled.parse?_eq (h : Restyled line line') (hn : '\n' ∉ line) :
    parse? line' = parse? line := by
  obtain ⟨hline, hb, ha, hc, -⟩ := h
  exact (parse?_congr (code_restyle hb ha hc)).trans (hline.parse?_eq hn)

theorem Recased.ne_nil (h : Recased line line') (hne : line ≠ []) : line' ≠ [] := by
  cases h with
  | same => exact hne
  | mnemonic hb hl hg hw hword hcase hr =>
    have hword' := Text.ne_nil_of_capitals hcase hword
    simp [hword']

theorem Restyled.ne_nil (h : Restyled line line') (hne : line ≠ []) : line' ≠ [] := by
  obtain ⟨hline, -, -, -, -⟩ := h
  have hline' := hline.ne_nil hne
  simp [hline']

theorem Recased.newline_not_mem (h : Recased line line') (hn : '\n' ∉ line) : '\n' ∉ line' := by
  cases h with
  | same => exact hn
  | @mnemonic before gap word word' rest label hb hl hg hw hne hcase hr =>
    simp only [List.mem_append, not_or] at hn ⊢
    have hword : '\n' ∉ word' := fun hm ↦
      absurd (Text.isWordChar_of_capitals hcase hw _ hm) (by decide)
    exact ⟨hn.1, hn.2.1, hn.2.2.1, hword, hn.2.2.2.2⟩

theorem Restyled.newline_not_mem (h : Restyled line line') (hn : '\n' ∉ line) : '\n' ∉ line' := by
  obtain ⟨hline, hb, ha, hc, hcomment⟩ := h
  simp only [List.mem_append, not_or]
  exact ⟨⟨fun hm ↦ (hb _ hm).2 rfl, hline.newline_not_mem hn, fun hm ↦ (ha _ hm).2 rfl⟩, hcomment⟩

end Line

namespace Text

/-- A source and the same source in another layout. A line may end with a carriage return and a line
feed, and the last one need not be ended. -/
inductive Restyled : Text → Text → Prop
  | nil : Restyled [] []
  | last {line line' : Text} (hne : line ≠ []) (hn : '\n' ∉ line)
      (hline : Line.Restyled line line') : Restyled line line'
  | line {line line' end_ rest rest' : Text} (hn : '\n' ∉ line)
      (hline : Line.Restyled line line') (hend : end_ = [] ∨ end_ = ['\r'])
      (hrest : Restyled rest rest') :
      Restyled (line ++ '\n' :: rest) (line' ++ end_ ++ '\n' :: rest')

variable {source source' : Text}

theorem Restyled.parse?_eq (h : Restyled source source') :
    List.Forall₂ (fun line line' ↦ Line.parse? line' = Line.parse? line) source.lines
      source'.lines := by
  induction h with
  | nil => exact .nil
  | @last line line' hne hn hline =>
    rw [lines_singleton hne hn, lines_singleton (hline.ne_nil hne) (hline.newline_not_mem hn)]
    exact .cons (hline.parse?_eq hn) .nil
  | @line line line' end_ rest rest' hn hline hend _ ih =>
    have hn' := hline.newline_not_mem hn
    have hend' : '\n' ∉ line' ++ end_ := by
      rw [List.mem_append, not_or]
      refine ⟨hn', ?_⟩
      obtain rfl | rfl := hend
      · decide
      · decide
    rw [lines_append_feed hn, lines_append_feed hend']
    refine .cons ?_ ih
    rw [Line.parse?_chomp, Line.parse?_chomp, ← hline.parse?_eq hn]
    obtain rfl | rfl := hend
    · rw [List.append_nil]
    · rw [← Line.parse?_chomp, chomp_append_return]

end Text

theorem Translation.rewords_of_parse? {text text' : Text}
    (h : Line.parse? text' = Line.parse? text) :
    Translation.id.Rewords (fun _ ↦ True) text text' := by
  constructor
  case line =>
    intro pass number pc symbols _
    have hline : pass.line number pc symbols text' = pass.line number pc symbols text := by
      rw [Pass.line, Pass.line, h]
    refine hline.trans ?_
    cases pass.line number pc symbols text with
    | error reason => rfl
    | ok r => rfl
  case keeps => exact fun _ _ _ _ _ _ _ _ ↦ trivial

namespace Assembler

variable {a : Assembler} {source source' : Text}

/-- A source in another layout assembles to the same bytes with the same labels, or fails on the
same line and for the same reason. -/
theorem assemblesAs_restyled (h : Text.Restyled source source') :
    a.AssemblesAs .id source source' :=
  assemblesAs_of_rewords rfl trivial (h.parse?_eq.imp fun _ _ ↦ Translation.rewords_of_parse?)

def loop : Text := "loop: dex\nbne loop".toList

def ornateLoop : Text := "\tloop: DeX ; a: * = LDA\r\nBNE loop ;".toList

theorem restyled_ornateLoop : Text.Restyled loop ornateLoop := by
  have hdex : Line.Recased
      ([] ++ (Line.mark (some "loop".toList) ++ ([' '] ++ ("dex".toList ++ []))))
      ([] ++ (Line.mark (some "loop".toList) ++ ([' '] ++ ("DeX".toList ++ [])))) := by
    have hlabel : ∀ name, some "loop".toList = some name →
        (∀ c ∈ name, Text.isWordChar c = true) ∧ name ≠ [] := by
      rintro name ⟨⟩
      exact ⟨List.all_eq_true.1 (by decide +kernel), by decide +kernel⟩
    exact .mnemonic (by decide) hlabel (by decide) (List.all_eq_true.1 (by decide +kernel))
      (by decide +kernel) (by decide +kernel) nofun
  have hbne : Line.Recased
      ([] ++ (Line.mark none ++ ([] ++ ("bne".toList ++ " loop".toList))))
      ([] ++ (Line.mark none ++ ([] ++ ("BNE".toList ++ " loop".toList)))) := by
    refine .mnemonic (by decide) nofun (by decide) (List.all_eq_true.1 (by decide +kernel))
      (by decide +kernel) (by decide +kernel) ?_
    rintro c ⟨⟩
    decide
  have hfirst : Line.Restyled _ (['\t'] ++ (_ ++ [' ']) ++ ';' :: " a: * = LDA".toList) :=
    .mk hdex (by decide) (by decide) (.inr ⟨_, rfl⟩) (by decide +kernel)
  have hsecond : Line.Restyled _ ([] ++ (_ ++ [' ']) ++ [';']) :=
    .mk hbne (by decide) (by decide) (.inr ⟨[], rfl⟩) (by decide)
  have h := Text.Restyled.line (by decide +kernel) hfirst (.inr rfl)
    (.last (by decide +kernel) (by decide +kernel) hsecond)
  convert h using 1
  · decide +kernel
  · decide +kernel

theorem assemblesAs_restyled_loop : Text.Restyled loop ornateLoop ∧
    (standard.assemble loop .blank).result = .ok 3 ∧ standard.AssemblesAs .id loop ornateLoop :=
  ⟨restyled_ornateLoop, by decide +kernel, assemblesAs_restyled restyled_ornateLoop⟩

end Assembler

end Micro6502
