import Micro6502.Proofs.LineParts
import Micro6502.Proofs.NameTranslation

namespace Micro6502

namespace Line

def renameStatement (f : Text → Text) (s : Text) : Text :=
  match (statement? s).bind Statement.name? with
  | none => s
  | some _ =>
    let rest := s.dropWhile Text.isWordChar
    s.takeWhile Text.isWordChar ++
      (rest.takeWhile Text.isBlank ++ Operand.renameText f (Text.skip rest))

def renameCode (f : Text → Text) (code : Text) : Text :=
  match splitLabel code with
  | (none, _) => renameStatement f code
  | (some name, statement) =>
    let gap := (code.drop (name.length + 1)).takeWhile Text.isBlank
    f name ++ ':' :: (gap ++ renameStatement f statement)

/-- A line with other names for its labels. The blanks around its code and its comment stay. -/
def rename (f : Text → Text) (text : Text) : Text :=
  let before := text.takeWhile Text.isBlank
  before ++ (renameCode f (code text) ++ text.drop (before ++ code text).length)

example : rename (· ++ ['_']) " one: LDX # <one ; one".toList =
    " one_: LDX # <one_ ; one".toList := by
  decide +kernel

def names (text : Text) : List Text :=
  (splitLabel (code text)).1.toList ++ ((parse? text).bind (·.statement.name?)).toList

variable {f : Text → Text} {s text name : Text} {c : Char}

theorem exists_rename (f : Text → Text) (text : Text) : ∃ before after comment,
    (∀ c ∈ before, Text.isBlank c = true) ∧ (∀ c ∈ after, Text.isBlank c = true) ∧
      IsComment comment ∧ text = before ++ (code text ++ after) ++ comment ∧
      rename f text = before ++ (renameCode f (code text) ++ after) ++ comment := by
  obtain ⟨u, comment, htext, hu, hcomment⟩ := exists_comment text
  have hcode : code text = Text.trim u := by
    rw [htext]
    exact @code_append [] comment u nofun hu hcomment
  have hblank : comment.takeWhile Text.isBlank = [] := by
    obtain rfl | ⟨rest, rfl⟩ := hcomment
    · rfl
    · exact List.takeWhile_cons_of_neg (by decide)
  -- The blanks before the code are all there are, also where the comment follows at once.
  have htake : text.takeWhile Text.isBlank = u.takeWhile Text.isBlank := by
    rw [htext, List.takeWhile_append, hblank, List.append_nil]
    split
    · rename_i hlength
      exact ((List.takeWhile_prefix _).eq_of_length hlength).symm
    · rfl
  obtain ⟨after, hafter, hsplit⟩ := Text.exists_trim u
  have hwhole : text = u.takeWhile Text.isBlank ++ (code text ++ after) ++ comment := by
    rw [hcode, ← hsplit]
    exact htext
  have hdrop : text.drop (u.takeWhile Text.isBlank ++ code text).length = after ++ comment := by
    have hassoc : text = (u.takeWhile Text.isBlank ++ code text) ++ (after ++ comment) := by
      refine hwhole.trans ?_
      simp only [List.append_assoc]
    exact (congrArg _ hassoc).trans List.drop_left
  refine ⟨u.takeWhile Text.isBlank, after, comment, fun c hc ↦ List.mem_takeWhile_imp hc, hafter,
    hcomment, hwhole, ?_⟩
  rw [rename, htake, hdrop]
  simp only [List.append_assoc]

/-- A mnemonic, a blank, and an operand behind it that names a label. -/
structure Naming (name word : Text) (c : Char) (tail : Text) (m : Mnemonic) (r : Reading) :
    Prop where
  isWord : ∀ d ∈ word, Text.isWordChar d = true
  ne_nil : word ≠ []
  isBlank : Text.isBlank c = true
  mnemonic : Mnemonic.ofName? (Text.capitals word) = some m
  ne_bytes : Text.capitals word ≠ bytesWord
  read : m.read? ((Text.skip (c :: tail)).filter (· ≠ ' ')) = some r
  label : r.operand.name? = some name
  statement : statement? (word ++ c :: tail) =
    some (.instruction (Text.capitals word) ((Text.skip (c :: tail)).filter (· ≠ ' ')))

theorem ne_nil_of_name? (h : (statement? s).bind Statement.name? = some name) :
    s.takeWhile Text.isWordChar ≠ [] := by
  intro hnil
  obtain ⟨st, hst, hname⟩ := Option.bind_eq_some_iff.1 h
  have hinstruction : instruction? s = none := by
    rw [instruction?, words?, if_pos (.inl hnil), Option.map_none]
  unfold statement? at hst
  rw [hinstruction] at hst
  split at hst
  · cases hst
    cases hname
  · split at hst
    · cases hst
      cases hname
    · cases hst

theorem exists_naming (h : (statement? s).bind Statement.name? = some name) (hn : Plain name) :
    ∃ word c tail m r, s = word ++ c :: tail ∧ Naming name word c tail m r := by
  obtain ⟨st, hst, hname⟩ := Option.bind_eq_some_iff.1 h
  have hsplit : s.takeWhile Text.isWordChar ++ s.dropWhile Text.isWordChar = s :=
    List.takeWhile_append_dropWhile
  have hw : ∀ c ∈ s.takeWhile Text.isWordChar, Text.isWordChar c = true :=
    fun c hc ↦ List.mem_takeWhile_imp hc
  have hne := ne_nil_of_name? h
  have htail : ∀ c ∈ (s.dropWhile Text.isWordChar).head?, Text.isWordChar c = false := by
    intro c hc
    have hhead := List.head?_dropWhile_not Text.isWordChar s
    rw [Option.mem_def.1 hc] at hhead
    exact hhead
  generalize s.takeWhile Text.isWordChar = word at *
  generalize s.dropWhile Text.isWordChar = tail at *
  subst hsplit
  have hstatement := hst
  rw [statement?_word_append hw hne htail] at hst
  obtain ⟨operand, ho, rfl⟩ := Option.map_eq_some_iff.1 hst
  unfold worded at hname hstatement
  split at hname
  · cases hname
  · rename_i hbytes
    rw [if_neg hbytes] at hstatement
    obtain ⟨r, hr, hrn⟩ := Option.bind_eq_some_iff.1 hname
    obtain ⟨m, hm, hr⟩ := Option.bind_eq_some_iff.1 hr
    unfold operandText? at ho
    split at ho
    · cases ho
    · cases tail with
      | nil =>
        cases ho
        obtain ⟨frame, -, hframe⟩ := AddressingMode.exists_frame (Mnemonic.read?_some hr).2.2 hrn
        obtain ⟨-, hnil⟩ := List.append_eq_nil_iff.1 hframe.symm
        exact absurd (List.append_eq_nil_iff.1 hnil).1 hn.ne_nil
      | cons c tail =>
        dsimp only at ho
        split at ho
        · rename_i hc
          cases ho
          exact ⟨word, c, tail, m, r, rfl, hw, hne, hc, hm, hbytes, hr, hrn, hstatement⟩
        · cases ho

namespace Naming

variable {word tail : Text} {m : Mnemonic} {r : Reading}

theorem head (h : Naming name word c tail m r) :
    ∀ d ∈ (c :: tail).head?, Text.isWordChar d = false := by
  rintro d ⟨⟩
  exact Text.isWordChar_of_isBlank h.isBlank

theorem blanks (h : Naming name word c tail m r) :
    ∀ d ∈ c :: tail.takeWhile Text.isBlank, Text.isBlank d = true :=
  List.forall_mem_cons.2 ⟨h.isBlank, fun _ hd ↦ List.mem_takeWhile_imp hd⟩

theorem renameStatement_eq (h : Naming name word c tail m r) (f : Text → Text) :
    renameStatement f (word ++ c :: tail) = word ++
      (c :: tail.takeWhile Text.isBlank ++ Operand.renameText f (Text.skip (c :: tail))) := by
  have hname : (statement? (word ++ c :: tail)).bind Statement.name? = some name := by
    rw [h.statement, Option.bind_some, Statement.name?, Statement.reading?, h.mnemonic,
      Option.bind_some, h.read, Option.bind_some, h.label]
  rw [renameStatement, hname]
  dsimp only
  rw [takeWhile_word_append h.isWord h.head, dropWhile_word_append h.isWord h.head,
    List.takeWhile_cons_of_pos h.isBlank]

theorem mem_renameStatement (h : Naming name word c tail m r) (hn : Plain name)
    (hfn : Plain (f name)) {d : Char} (hd : d ∈ renameStatement f (word ++ c :: tail)) :
    d ∈ word ++ c :: tail ∨ Text.isWordChar d = true := by
  obtain ⟨frame, -, hframe, -⟩ := Mnemonic.exists_frame h.read h.label hn hfn
  rw [h.renameStatement_eq, List.mem_append, List.mem_append, List.mem_cons] at hd
  obtain hd | (rfl | hd) | hd := hd
  · exact .inl (List.mem_append_left _ hd)
  · exact .inl (List.mem_append_right _ List.mem_cons_self)
  · have htail : d ∈ tail := (List.takeWhile_prefix _).subset hd
    exact .inl (List.mem_append_right _ (List.mem_cons_of_mem _ htail))
  · refine (frame.mem_renameText hn hfn.word hframe d hd).imp_left fun hm ↦ ?_
    exact List.mem_append_right _ (Text.mem_of_mem_skip hm)

theorem rel_renameStatement (h : Naming name word c tail m r) (hn : Plain name)
    (hfn : Plain (f name)) (hfeed : '\n' ∉ word ++ c :: tail) :
    let s := Text.trim (renameStatement f (word ++ c :: tail))
    Option.Rel (Statement.Renames f) (statement? (word ++ c :: tail)) (statement? s) ∧
      splitLabel s = (none, s) := by
  obtain ⟨frame, hsolid, hframe, hread⟩ := Mnemonic.exists_frame h.read h.label hn hfn
  have hoperand := frame.filter_renameText hn hfn.word hframe
  have hfeed' : '\n' ∉ Operand.renameText f (Text.skip (c :: tail)) := fun hm ↦
    (frame.mem_renameText hn hfn.word hframe _ hm).elim
      (fun hm ↦ hfeed (List.mem_append_right _ (Text.mem_of_mem_skip hm)))
      fun hword ↦ absurd hword (by decide)
  have hnonempty : frame.text (f name) ≠ [] := by simp [Frame.text, hfn.ne_nil]
  obtain ⟨hst, hlabel⟩ := statement?_trim_append h.isWord h.ne_nil h.blanks hfeed' hoperand
    (hsolid.isBlank_text hfn) hnonempty
  dsimp only
  rw [h.renameStatement_eq, h.statement, hst, worded, if_neg h.ne_bytes]
  exact ⟨.some (.operand h.mnemonic h.read hread), hlabel⟩

end Naming

section Statements

variable (hplain : ∀ name, (statement? s).bind Statement.name? = some name →
  Plain name ∧ Plain (f name))
include hplain

theorem mem_renameStatement (hc : c ∈ renameStatement f s) :
    c ∈ s ∨ Text.isWordChar c = true := by
  cases hname : (statement? s).bind Statement.name? with
  | none =>
    rw [renameStatement, hname] at hc
    exact .inl hc
  | some name =>
    obtain ⟨hn, hfn⟩ := hplain name hname
    obtain ⟨word, d, tail, m, r, rfl, hnaming⟩ := exists_naming hname hn
    exact hnaming.mem_renameStatement hn hfn hc

theorem rel_renameStatement (hfeed : '\n' ∉ s) (htrim : Text.trim s = s) :
    Option.Rel (Statement.Renames f) (statement? s) (statement? (Text.trim (renameStatement f s))) ∧
      (splitLabel s = (none, s) → splitLabel (Text.trim (renameStatement f s)) =
        (none, Text.trim (renameStatement f s))) := by
  cases hname : (statement? s).bind Statement.name? with
  | none =>
    rw [renameStatement, hname]
    dsimp only
    rw [htrim]
    refine ⟨?_, id⟩
    cases hst : statement? s with
    | none => exact .none
    | some st =>
      rw [hst] at hname
      exact .some (.same hname)
  | some name =>
    obtain ⟨hn, hfn⟩ := hplain name hname
    obtain ⟨word, d, tail, m, r, rfl, hnaming⟩ := exists_naming hname hn
    obtain ⟨hrel, hlabel⟩ := hnaming.rel_renameStatement hn hfn hfeed
    exact ⟨hrel, fun _ ↦ hlabel⟩

end Statements

theorem parse?_eq (text : Text) : parse? text =
    (statement? (splitLabel (code text)).2).map (⟨(splitLabel (code text)).1, ·⟩) := rfl

theorem exists_renameCode (f : Text → Text) (t : Text) : ∃ gap,
    (∀ c ∈ gap, Text.isBlank c = true ∧ c ∈ t) ∧ renameCode f t =
      mark ((splitLabel t).1.map f) ++ (gap ++ renameStatement f (splitLabel t).2) := by
  unfold renameCode
  cases hs : splitLabel t with
  | mk label statement =>
    cases label with
    | none =>
      have hnone := splitLabel_of_none (congrArg Prod.fst hs)
      obtain rfl : t = statement := congrArg Prod.snd (hnone.symm.trans hs)
      exact ⟨[], nofun, rfl⟩
    | some name =>
      refine ⟨(t.drop (name.length + 1)).takeWhile Text.isBlank, fun c hc ↦ ?_, ?_⟩
      · exact ⟨List.mem_takeWhile_imp hc,
          List.mem_of_mem_drop ((List.takeWhile_prefix _).subset hc)⟩
      · rw [Option.map_some, mark, List.append_assoc]
        rfl

theorem trim_splitLabel {t : Text} (h : Text.trim t = t) :
    Text.trim (splitLabel t).2 = (splitLabel t).2 := by
  unfold splitLabel
  split
  · split
    · exact Text.trim_trim _
    · exact h
  · exact h

theorem mem_splitLabel {t : Text} (h : c ∈ (splitLabel t).2) : c ∈ t := by
  unfold splitLabel at h
  split at h
  · rename_i rest hrest
    split at h
    · have hm : c ∈ t.dropWhile Text.isWordChar := by
        rw [hrest]
        exact List.mem_cons_of_mem _ (Text.mem_of_mem_trim h)
      exact (List.dropWhile_suffix _).subset hm
    · exact h
  · exact h

section Lines

variable (hfeed : '\n' ∉ text) (hplain : ∀ name ∈ names text, Plain name ∧ Plain (f name))
include hplain

theorem plain_of_label (hname : (splitLabel (code text)).1 = some name) :
    Plain name ∧ Plain (f name) :=
  hplain name (List.mem_append_left _ (Option.mem_toList.2 hname))

theorem plain_of_statement
    (hname : (statement? (splitLabel (code text)).2).bind Statement.name? = some name) :
    Plain name ∧ Plain (f name) := by
  refine hplain name (List.mem_append_right _ (Option.mem_toList.2 ?_))
  rw [parse?_eq, Option.bind_map]
  exact hname

theorem mem_renameCode (hc : c ∈ renameCode f (code text)) :
    c ∈ code text ∨ Text.isWordChar c = true ∨ c = ':' := by
  obtain ⟨gap, hgap, hcode⟩ := exists_renameCode f (code text)
  rw [hcode, List.mem_append, List.mem_append] at hc
  obtain hc | hc | hc := hc
  · cases hlabel : (splitLabel (code text)).1 with
    | none =>
      rw [hlabel] at hc
      exact absurd hc List.not_mem_nil
    | some name =>
      rw [hlabel, Option.map_some, mark, List.mem_append, List.mem_singleton] at hc
      exact .inr (hc.imp_left ((plain_of_label hplain hlabel).2.word c))
  · exact .inl (hgap c hc).2
  · exact (mem_renameStatement (fun _ ↦ plain_of_statement hplain) hc).imp mem_splitLabel .inl

theorem not_mem_renameCode (hc : c ∉ code text) (hword : Text.isWordChar c = false)
    (hcolon : c ≠ ':') : c ∉ renameCode f (code text) := by
  intro hm
  obtain hm | hm | hm := mem_renameCode hplain hm
  · exact hc hm
  · exact Bool.false_ne_true (hword.symm.trans hm)
  · exact hcolon hm

include hfeed in
theorem newline_not_mem_rename : '\n' ∉ rename f text := by
  obtain ⟨before, after, comment, -, -, -, htext, hrename⟩ := exists_rename f text
  have hcode : '\n' ∉ renameCode f (code text) :=
    not_mem_renameCode hplain (newline_not_mem_code hfeed) (by decide) (by decide)
  rw [htext] at hfeed
  rw [hrename]
  simp only [List.mem_append, not_or] at hfeed ⊢
  exact ⟨⟨hfeed.1.1, hcode, hfeed.1.2.2⟩, hfeed.2⟩

theorem isWordChar_renamed :
    ∀ name, (splitLabel (code text)).1.map f = some name →
      (∀ c ∈ name, Text.isWordChar c = true) ∧ name ≠ [] := by
  intro name hname
  obtain ⟨old, hold, rfl⟩ := Option.map_eq_some_iff.1 hname
  obtain ⟨-, hnew⟩ := plain_of_label hplain hold
  exact ⟨hnew.word, hnew.ne_nil⟩

include hfeed in
theorem rel_renameStatement_code :
    let s := (splitLabel (code text)).2
    let s' := Text.trim (renameStatement f s)
    Option.Rel (Statement.Renames f) (statement? s) (statement? s') ∧
      (splitLabel s = (none, s) → splitLabel s' = (none, s')) :=
  rel_renameStatement (fun _ ↦ plain_of_statement hplain)
    (fun hm ↦ newline_not_mem_code hfeed (mem_splitLabel hm)) (trim_splitLabel (Text.trim_trim _))

include hfeed in
theorem parse?_rename : parse? (rename f text) =
    (statement? (Text.trim (renameStatement f (splitLabel (code text)).2))).map
      (⟨(splitLabel (code text)).1.map f, ·⟩) := by
  obtain ⟨before, after, comment, hbefore, hafter, hcomment, htext, hrename⟩ := exists_rename f text
  obtain ⟨gap, hgap, hcode⟩ := exists_renameCode f (code text)
  obtain ⟨-, hnone⟩ := rel_renameStatement_code hfeed hplain
  have htrim : Text.trim (gap ++ renameStatement f (splitLabel (code text)).2 ++ after) =
      Text.trim (renameStatement f (splitLabel (code text)).2) := by
    rw [Text.trim_append_right hafter, Text.trim_append_left fun c hc ↦ (hgap c hc).1]
  have hsolid : ∀ d, d ∉ renameCode f (code text) → d ∉ after →
      d ∉ gap ++ renameStatement f (splitLabel (code text)).2 ++ after := by
    intro d hd hda hm
    rw [hcode] at hd
    exact (List.mem_append.1 hm).elim (fun hm ↦ hd (List.mem_append_right _ hm)) hda
  have hsemicolon := hsolid ';'
    (not_mem_renameCode hplain (fun hm ↦ (mem_code hm).2 rfl) (by decide) (by decide))
    (fun hm ↦ absurd (hafter _ hm) (by decide))
  have hbehind : '\n' ∉ after := fun hm ↦ hfeed (by
    rw [htext]
    exact List.mem_append_left _ (List.mem_append_right _ (List.mem_append_right _ hm)))
  have hnewline := hsolid '\n'
    (not_mem_renameCode hplain (newline_not_mem_code hfeed) (by decide) (by decide)) hbehind
  rw [hrename, hcode, List.append_assoc (mark _), parse?_append hbefore (isWordChar_renamed hplain)
    ?_ hsemicolon hnewline hcomment, htrim]
  intro hn
  rw [htrim]
  refine hnone ?_
  rw [splitLabel_of_none (Option.map_eq_none_iff.1 hn)]
  exact splitLabel_of_none (Option.map_eq_none_iff.1 hn)

include hfeed in
/-- A line with other names for its labels says the same but for these names. -/
theorem rel_rename :
    Option.Rel (fun l l' ↦ l'.label = l.label.map f ∧ l.statement.Renames f l'.statement)
      (parse? text) (parse? (rename f text)) := by
  obtain ⟨hrel, -⟩ := rel_renameStatement_code hfeed hplain
  rw [parse?_eq, parse?_rename hfeed hplain]
  generalize statement? (Text.trim _) = st' at hrel ⊢
  generalize statement? _ = st at hrel ⊢
  cases hrel with
  | none => exact .none
  | some hst => exact .some ⟨rfl, hst⟩

end Lines

end Line

namespace Pass

theorem mem_symbols_of_declare {pass : Pass} {number pc : Nat} {label : Option Text}
    {s s' : SymbolTable} (h : pass.declare number pc label s = .ok s') :
    ∀ x ∈ s'.symbols, x ∈ s.symbols ∨ label = some x.name := by
  intro x hx
  cases pass with
  | commit =>
    cases h
    exact .inl hx
  | index =>
    obtain ⟨hsymbols, -⟩ := declare_index_ok h
    rw [hsymbols, List.mem_append, Option.mem_toList, Option.map_eq_some_iff] at hx
    obtain hx | ⟨name, hlabel, rfl⟩ := hx
    · exact .inl hx
    · exact .inr hlabel

end Pass

namespace Translation

variable {f : Text → Text} {names : List Text} {text : Text}

theorem rewords_rename (hfeed : '\n' ∉ text)
    (hplain : ∀ name ∈ Line.names text, Plain name ∧ Plain (f name))
    (hnames : ∀ name ∈ Line.names text, name ∈ names)
    (hinj : ∀ n ∈ names, ∀ n' ∈ names, f n = f n' → n = n') :
    (ofNames f).Rewords (fun s ↦ ∀ x ∈ s.symbols, x.name ∈ names) text (Line.rename f text) := by
  have hlabel : ∀ l name, Line.parse? text = some l → l.label = some name → name ∈ names := by
    intro l name hl hn
    obtain ⟨st, -, rfl⟩ := Option.map_eq_some_iff.1 hl
    exact hnames name (List.mem_append_left _ (Option.mem_toList.2 hn))
  have hname : ∀ l name, Line.parse? text = some l → l.statement.name? = some name →
      name ∈ names := by
    intro l name hl hn
    refine hnames name (List.mem_append_right _ (Option.mem_toList.2 ?_))
    rw [hl]
    exact hn
  constructor
  case line =>
    intro pass number pc s hs
    refine Pass.line_rename (Line.rel_rename hfeed hplain) ?_ ?_
    · intro l name hl hn x hx
      exact hinj _ (hs x hx) _ (hlabel l name hl hn)
    · intro l s' name hl hd hn
      refine SymbolTable.address?_rename fun x hx ↦ hinj _ ?_ _ (hname l name hl hn)
      obtain hx | hx := Pass.mem_symbols_of_declare hd x hx
      · exact hs x hx
      · exact hlabel l _ hl hx
  case keeps =>
    intro pass number pc s s' effect hs h x hx
    obtain ⟨-, -, rfl, -⟩ | ⟨l, hl, hd, -⟩ := Pass.line_eq_ok_iff.1 h
    · exact hs x hx
    · obtain hx | hx := Pass.mem_symbols_of_declare hd x hx
      · exact hs x hx
      · exact hlabel l _ hl hx

end Translation

def Text.labels (source : Text) : List Text := source.lines.flatMap Line.names

namespace Assembler

variable {a : Assembler} {f : Text → Text} {source : Text}

/-- A source whose labels have other names, which differ where the names do, assembles to the same
bytes, and to the same table but for the names. Or it fails on the same line and for the same reason
but for the names. -/
theorem assemblesAs_renamed (hplain : ∀ name ∈ source.labels, Plain name ∧ Plain (f name))
    (hinj : ∀ n ∈ source.labels, ∀ n' ∈ source.labels, f n = f n' → n = n') :
    (∃ source' : Text, source'.lines = source.lines.map (Line.rename f)) ∧
      ∀ source' : Text, source'.lines = source.lines.map (Line.rename f) →
        a.AssemblesAs (.ofNames f) source source' := by
  have hmem : ∀ text ∈ source.lines, ∀ name ∈ Line.names text, name ∈ source.labels :=
    fun text ht name hn ↦ List.mem_flatMap.2 ⟨text, ht, hn⟩
  constructor
  · refine Text.exists_lines_eq fun l hl ↦ ?_
    obtain ⟨text, ht, rfl⟩ := List.mem_map.1 hl
    exact Line.newline_not_mem_rename (Text.newline_not_mem_of_mem_lines ht)
      fun name hn ↦ hplain name (hmem text ht name hn)
  · intro source' hlines
    have hrewords : List.Forall₂ ((Translation.ofNames f).Rewords
        fun s ↦ ∀ x ∈ s.symbols, x.name ∈ source.labels) source.lines source'.lines := by
      rw [hlines, List.forall₂_map_right_iff, List.forall₂_same]
      intro text ht
      exact Translation.rewords_rename (Text.newline_not_mem_of_mem_lines ht)
        (fun name hn ↦ hplain name (hmem text ht name hn)) (hmem text ht) hinj
    exact assemblesAs_of_rewords rfl (fun _ hx ↦ absurd hx List.not_mem_nil) hrewords

def labelled : Text := "one: LDX #<one\nJMP (two)\ntwo: INX\nBNE one\nSTA one,x".toList

def toKeywords (name : Text) : Text := if name = "one".toList then ['x'] else "ADC".toList

theorem assemblesAs_renamed_labelled : (standard.assemble labelled .blank).result = .ok 11 ∧
    (∃ source' : Text, source'.lines = labelled.lines.map (Line.rename toKeywords)) ∧
      ∀ source' : Text, source'.lines = labelled.lines.map (Line.rename toKeywords) →
        standard.AssemblesAs (.ofNames toKeywords) labelled source' :=
  ⟨by decide +kernel, assemblesAs_renamed (by decide +kernel) (by decide +kernel)⟩

end Assembler

end Micro6502
