import Micro6502.Proofs.Disassembly
import Micro6502.Proofs.PassImages

namespace Micro6502

/-- A name that is taken for a label and nothing else. -/
structure Plain (name : Text) : Prop where
  word : ∀ c ∈ name, Text.isWordChar c = true
  ne_nil : name ≠ []
  ne_upper : name ≠ ['A']
  ne_lower : name ≠ ['a']
  not_number : ¬ ∀ c ∈ name, c.isDigit = true

theorem plain_iff {name : Text} : Plain name ↔ name.all Text.isWordChar = true ∧ name ≠ [] ∧
    name ≠ ['A'] ∧ name ≠ ['a'] ∧ ¬ name.all Char.isDigit = true := by
  rw [List.all_eq_true, List.all_eq_true]
  exact ⟨fun ⟨h₁, h₂, h₃, h₄, h₅⟩ ↦ ⟨h₁, h₂, h₃, h₄, h₅⟩,
    fun ⟨h₁, h₂, h₃, h₄, h₅⟩ ↦ ⟨h₁, h₂, h₃, h₄, h₅⟩⟩

instance (name : Text) : Decidable (Plain name) := decidable_of_iff' _ plain_iff

/-- What stands around a label in an operand. -/
inductive Frame where
  | bare
  | indexed (register : Char)
  | lowByte
  | highByte
  | indirect

namespace Frame

def before : Frame → Text
  | bare | indexed _ => []
  | lowByte => ['#', '<']
  | highByte => ['#', '>']
  | indirect => ['(']

def after : Frame → Text
  | bare | lowByte | highByte => []
  | indexed register => [',', register]
  | indirect => [')']

def text (frame : Frame) (name : Text) : Text := frame.before ++ (name ++ frame.after)

theorem text_bare (name : Text) : bare.text name = name := List.append_nil name

theorem text_lowByte (name : Text) : lowByte.text name = '#' :: '<' :: name :=
  congrArg ('#' :: '<' :: ·) (List.append_nil name)

theorem text_highByte (name : Text) : highByte.text name = '#' :: '>' :: name :=
  congrArg ('#' :: '>' :: ·) (List.append_nil name)

def Solid (frame : Frame) : Prop := ∀ c ∈ frame.after, Text.isBlank c = false

theorem solid_of_after_eq_nil {frame : Frame} (h : frame.after = []) : frame.Solid := by
  intro c hc
  rw [h] at hc
  exact absurd hc List.not_mem_nil

def operand? (frame : Frame) (mode : AddressingMode) (name : Text) : Option Operand :=
  match frame, mode with
  | bare, .absolute | bare, .relative | indirect, .indirect => some (.label name)
  | indexed register, .absoluteX => if register.toUpper = 'X' then some (.label name) else none
  | indexed register, .absoluteY => if register.toUpper = 'Y' then some (.label name) else none
  | lowByte, .immediate => some (.lowByte name)
  | highByte, .immediate => some (.highByte name)
  | _, _ => none

end Frame

namespace Plain

open Operand hiding none

variable {name : Text} {c : Char} {least most : Nat}

theorem not_mem (h : Plain name) (hc : Text.isWordChar c = false) : c ∉ name :=
  fun hm ↦ Bool.false_ne_true (hc.symm.trans (h.word c hm))

theorem free (h : Plain name) : Marks.Free name := Marks.free_of_not_mem fun _ hc _ ↦ h.not_mem hc

theorem head_ne {d : Char} {rest : Text} (h : Plain (c :: rest))
    (hd : Text.isWordChar d = false) : c ≠ d := by
  rintro rfl
  exact h.not_mem hd List.mem_cons_self

theorem hexNumber? (h : Plain name) : Operand.hexNumber? least most name = none := by
  unfold Operand.hexNumber?
  split
  · exact absurd List.mem_cons_self (h.not_mem (by decide))
  · rfl

theorem decimalNumber? (h : Plain name) : Operand.decimalNumber? name = none := by
  refine if_neg ?_
  rintro ⟨-, -, hall⟩
  exact h.not_number fun c hc ↦ Numeral.isDigit_ten_iff.1 (List.all_eq_true.1 hall c hc)

theorem label? (h : Plain name) : Operand.label? name = some (.label name) := by
  rw [Operand.label?, word?, if_pos ⟨h.ne_nil, List.all_eq_true.2 h.word⟩, Option.map_some]

theorem byte? (h : Plain name) : Operand.byte? name = none := by
  rw [Operand.byte?, h.hexNumber?, h.decimalNumber?, Option.or_none]

theorem hexOrLabel (h : Plain name) :
    (Operand.hexNumber? least most name).or (Operand.label? name) = some (.label name) := by
  rw [h.hexNumber?, h.label?, Option.none_or]

theorem capitals_ne (h : Plain name) : Text.capitals name ≠ ['A'] := fun hcapitals ↦
  ((Text.capitals_eq_singleton_iff (by decide) rfl).1 hcapitals).elim h.ne_upper h.ne_lower

end Plain

namespace AddressingMode

open Operand hiding none

variable {name t : Text} {mode : AddressingMode} {o : Operand}

theorem operand?_bare (h : Plain name) : mode.operand? name = Frame.bare.operand? mode name := by
  cases mode with
  | single => exact if_neg (not_or.2 ⟨h.ne_nil, h.capitals_ne⟩)
  | zeroPage => exact h.byte?
  | absolute | relative => exact h.hexOrLabel
  | _ =>
    refine operand?_of_marks_ne ?_
    rw [Marks.of_free h.free]
    decide

theorem operand?_indexedName (h : Plain name) (r : Char) :
    mode.operand? (name ++ [',', r]) = (Frame.indexed r).operand? mode name := by
  obtain ⟨c, rest, rfl⟩ := List.exists_cons_of_ne_nil h.ne_nil
  have hparentheses (u : Text) : inParentheses? (c :: u) = none :=
    inParentheses?_cons (h.head_ne (by decide))
  cases mode with
  | zeroPageX | zeroPageY =>
    rw [operand?, beforeIndex?_append]
    split
    · exact h.byte?
    · rfl
  | absoluteX | absoluteY =>
    rw [operand?, beforeIndex?_append]
    refine (apply_ite (Option.bind · _) _ _ _).trans ?_
    exact if_congr Iff.rfl h.hexOrLabel rfl
  | indirectX =>
    rw [operand?, List.cons_append, hparentheses]
    rfl
  | indirectY =>
    rw [operand?, beforeIndex?_append]
    split
    · rw [Option.bind_some, hparentheses]
      rfl
    · rfl
  | _ =>
    refine operand?_of_marks_ne fun hmarks ↦ ?_
    have hlast := (Marks.last_indexed (c :: rest) r).symm.trans (congrArg Marks.last hmarks)
    cases hlast

theorem operand?_half {d : Char} (hd : d ∉ ['#', '(', ',']) (h : Plain name)
    (hm : mode ≠ .immediate) : mode.operand? ('#' :: d :: name) = none := by
  refine operand?_of_marks_ne ?_
  rw [Marks.of_sign (h.free.cons hd)]
  cases mode with
  | immediate => exact absurd rfl hm
  | _ => decide

theorem operand?_parenthesized (h : Plain name) :
    mode.operand? ('(' :: (name ++ [')'])) = Frame.indirect.operand? mode name := by
  cases mode with
  | indirect =>
    rw [operand?, inParentheses?_append]
    exact h.hexOrLabel
  | _ =>
    refine operand?_of_marks_ne ?_
    rw [Marks.of_parenthesized h.free]
    decide

/-- Every mode reads a plain name in a frame as a label or not at all, whatever the name. -/
theorem operand?_text (h : Plain name) (frame : Frame) :
    mode.operand? (frame.text name) = frame.operand? mode name := by
  have hword : word? name = some name := if_pos ⟨h.ne_nil, List.all_eq_true.2 h.word⟩
  cases frame with
  | bare =>
    rw [Frame.text_bare]
    exact operand?_bare h
  | indexed r => exact operand?_indexedName h r
  | lowByte =>
    rw [Frame.text_lowByte]
    by_cases hm : mode = .immediate
    · subst hm
      exact congrArg (Option.map Operand.lowByte) hword
    · refine (operand?_half (d := '<') (by decide) h hm).trans ?_
      cases mode <;> first | rfl | contradiction
  | highByte =>
    rw [Frame.text_highByte]
    by_cases hm : mode = .immediate
    · subst hm
      exact congrArg (Option.map Operand.highByte) hword
    · refine (operand?_half (d := '>') (by decide) h hm).trans ?_
      cases mode <;> first | rfl | contradiction
  | indirect => exact operand?_parenthesized h

theorem eq_of_hexOrLabel {least most : Nat}
    (h : (hexNumber? least most t).or (label? t) = some o) (hn : o.name? = some name) :
    t = name := by
  obtain h | ⟨-, h⟩ := Option.or_eq_some_iff.1 h
  · obtain ⟨v, rfl⟩ := hexNumber?_some h
    cases hn
  · obtain ⟨u, hu, rfl⟩ := Option.map_eq_some_iff.1 h
    exact (word?_eq_some hu).trans (Option.some.inj hn)

theorem name?_ne_of_byte? (h : byte? t = some o) : o.name? ≠ some name := by
  intro hn
  obtain ⟨v, rfl⟩ | ⟨v, rfl⟩ := byte?_some h
  · cases hn
  · cases hn

theorem exists_frame_of_constant? (h : constant? t = some o) (hn : o.name? = some name) :
    ∃ frame : Frame, frame.Solid ∧ '#' :: t = frame.text name := by
  unfold constant? at h
  split at h
  · obtain ⟨v, hv, rfl⟩ := Option.map_eq_some_iff.1 h
    cases hn
    refine ⟨.lowByte, Frame.solid_of_after_eq_nil rfl, ?_⟩
    rw [Frame.text_lowByte, word?_eq_some hv]
  · obtain ⟨v, hv, rfl⟩ := Option.map_eq_some_iff.1 h
    cases hn
    refine ⟨.highByte, Frame.solid_of_after_eq_nil rfl, ?_⟩
    rw [Frame.text_highByte, word?_eq_some hv]
  · exact absurd hn (name?_ne_of_byte? h)

/-- Where a label is read, it stands in a frame. -/
theorem exists_frame (h : mode.operand? t = some o) (hn : o.name? = some name) :
    ∃ frame : Frame, frame.Solid ∧ t = frame.text name := by
  cases mode with
  | single =>
    simp only [operand?] at h
    split at h
    · cases h
      cases hn
    · cases h
  | immediate =>
    obtain ⟨u, rfl, hu⟩ := operand?_immediate_some h
    exact exists_frame_of_constant? hu hn
  | zeroPage => exact absurd hn (name?_ne_of_byte? h)
  | zeroPageX | zeroPageY =>
    obtain ⟨u, -, hu⟩ := Option.bind_eq_some_iff.1 h
    exact absurd hn (name?_ne_of_byte? hu)
  | absolute | relative =>
    refine ⟨.bare, Frame.solid_of_after_eq_nil rfl, ?_⟩
    rw [Frame.text_bare, eq_of_hexOrLabel h hn]
  | absoluteX | absoluteY =>
    obtain ⟨u, hu, ho⟩ := Option.bind_eq_some_iff.1 h
    obtain ⟨c, hc, rfl⟩ := eq_of_beforeIndex? hu
    have hword : Text.isWordChar c = true := by
      rw [← Text.isWordChar_toUpper, hc]
      decide
    refine ⟨.indexed c, ?_, congrArg (· ++ [',', c]) (eq_of_hexOrLabel ho hn)⟩
    exact List.forall_mem_cons.2 ⟨by decide, List.forall_mem_singleton.2
      (Text.isBlank_of_isWordChar hword)⟩
  | indirectX | indirectY =>
    obtain ⟨u, -, hu⟩ := Option.bind_eq_some_iff.1 h
    obtain ⟨v, rfl⟩ := hexNumber?_some hu
    cases hn
  | indirect =>
    obtain ⟨u, hu, ho⟩ := Option.bind_eq_some_iff.1 h
    obtain rfl := eq_of_inParentheses? hu
    refine ⟨.indirect, ?_, congrArg (fun n ↦ '(' :: (n ++ [')'])) (eq_of_hexOrLabel ho hn)⟩
    exact List.forall_mem_singleton.2 (by decide)

end AddressingMode

namespace Operand

def rename (f : Text → Text) : Operand → Operand
  | label name => label (f name)
  | lowByte name => lowByte (f name)
  | highByte name => highByte (f name)
  | o => o

theorem rename_eq_self {f : Text → Text} {o : Operand} (h : o.name? = Option.none) :
    o.rename f = o := by
  cases o with
  | none | hex v | decimal v => rfl
  | label name | lowByte name | highByte name => cases h

def inName (c : Char) : Bool := Text.isWordChar c || c = ' '

/-- An operand text with another name in place of its first word. -/
def renameText (f : Text → Text) (t : Text) : Text :=
  let rest := t.dropWhile (!Text.isWordChar ·)
  t.takeWhile (!Text.isWordChar ·) ++
    (f ((rest.takeWhile inName).filter (· ≠ ' ')) ++ rest.dropWhile inName)

end Operand

def Reading.rename (f : Text → Text) (r : Reading) : Reading :=
  { r with operand := r.operand.rename f }

def Statement.reading? : Statement → Option Reading
  | .instruction name operand => (Mnemonic.ofName? name).bind (·.read? operand)
  | _ => none

def Statement.name? (st : Statement) : Option Text := st.reading?.bind (·.operand.name?)

section Filter

variable {α : Type} {p q : α → Bool}

theorem filter_takeWhile (h : ∀ a, q a = false → p a = true) (l : List α) :
    (l.takeWhile p).filter q = (l.filter q).takeWhile p := by
  induction l with
  | nil => rfl
  | cons a l ih =>
    cases hp : p a with
    | true =>
      cases hq : q a with
      | true =>
        rw [List.takeWhile_cons_of_pos hp, List.filter_cons_of_pos hq, List.filter_cons_of_pos hq,
          List.takeWhile_cons_of_pos hp, ih]
      | false =>
        have hq' : ¬ q a = true := by simp [hq]
        rw [List.takeWhile_cons_of_pos hp, List.filter_cons_of_neg hq', List.filter_cons_of_neg hq',
          ih]
    | false =>
      have hp' : ¬ p a = true := by simp [hp]
      have hq : q a = true := by
        by_contra hq
        exact hp' (h a (by simpa using hq))
      rw [List.takeWhile_cons_of_neg hp', List.filter_cons_of_pos hq,
        List.takeWhile_cons_of_neg hp', List.filter_nil]

theorem filter_dropWhile (h : ∀ a, q a = false → p a = true) (l : List α) :
    (l.dropWhile p).filter q = (l.filter q).dropWhile p := by
  have hsplit : (l.takeWhile p).filter q ++ (l.dropWhile p).filter q =
      (l.filter q).takeWhile p ++ (l.filter q).dropWhile p := by
    rw [← List.filter_append, List.takeWhile_append_dropWhile, List.takeWhile_append_dropWhile]
  rw [filter_takeWhile h] at hsplit
  exact List.append_cancel_left hsplit

end Filter

namespace Frame

variable {f : Text → Text} {name t : Text}

theorem operand?_rename (frame : Frame) (mode : AddressingMode) :
    frame.operand? mode (f name) = (frame.operand? mode name).map (Operand.rename f) := by
  cases frame with
  | bare | lowByte | highByte | indirect => cases mode <;> rfl
  | indexed r =>
    cases mode with
    | absoluteX | absoluteY =>
      simp only [operand?]
      split
      · rfl
      · rfl
    | _ => rfl

theorem takeWhile_text (h : Plain name) (frame : Frame) :
    (frame.text name).takeWhile (!Text.isWordChar ·) = frame.before ∧
      (frame.text name).dropWhile (!Text.isWordChar ·) = name ++ frame.after := by
  obtain ⟨c, rest, rfl⟩ := List.exists_cons_of_ne_nil h.ne_nil
  have hc : ¬ (!Text.isWordChar c) = true := by simp [h.word c List.mem_cons_self]
  have hbefore : ∀ d ∈ frame.before, (!Text.isWordChar d) = true :=
    List.all_eq_true.1 (by cases frame <;> rfl)
  rw [text, List.takeWhile_append_of_pos hbefore, List.dropWhile_append_of_pos hbefore,
    List.cons_append, List.takeWhile_cons_of_neg (p := (!Text.isWordChar ·)) hc,
    List.dropWhile_cons_of_neg (p := (!Text.isWordChar ·)) hc, List.append_nil]
  exact ⟨rfl, rfl⟩

theorem takeWhile_inName (h : Plain name) (frame : Frame) :
    (name ++ frame.after).takeWhile Operand.inName = name ∧
      (name ++ frame.after).dropWhile Operand.inName = frame.after := by
  have hname : ∀ c ∈ name, Operand.inName c = true := fun c hc ↦ by
    simp [Operand.inName, h.word c hc]
  have hafter : frame.after.takeWhile Operand.inName = [] ∧
      frame.after.dropWhile Operand.inName = frame.after := by
    cases frame with
    | bare | lowByte | highByte => exact ⟨rfl, rfl⟩
    | indexed r =>
      exact ⟨List.takeWhile_cons_of_neg (by decide), List.dropWhile_cons_of_neg (by decide)⟩
    | indirect =>
      exact ⟨List.takeWhile_cons_of_neg (by decide), List.dropWhile_cons_of_neg (by decide)⟩
  rw [List.takeWhile_append_of_pos hname, List.dropWhile_append_of_pos hname, hafter.1, hafter.2,
    List.append_nil]
  exact ⟨rfl, rfl⟩

theorem exists_renameText (h : Plain name) (frame : Frame)
    (ht : t.filter (· ≠ ' ') = frame.text name) :
    ∃ p q, (∀ c ∈ p, c ∈ t) ∧ (∀ c ∈ q, c ∈ t) ∧ p.filter (· ≠ ' ') = frame.before ∧
      q.filter (· ≠ ' ') = frame.after ∧ Operand.renameText f t = p ++ (f name ++ q) := by
  have hspace : ∀ c : Char, decide (c ≠ ' ') = false → (!Text.isWordChar c) = true ∧
      Operand.inName c = true := by
    intro c hc
    obtain rfl : c = ' ' := by simpa using hc
    decide
  obtain ⟨htake, hdrop⟩ := takeWhile_text h frame
  obtain ⟨hword, hafter⟩ := takeWhile_inName h frame
  -- Spaces may be dropped before the text is cut, so that it is cut as the frame and its name are.
  have hrest : (t.dropWhile (!Text.isWordChar ·)).filter (· ≠ ' ') = name ++ frame.after := by
    rw [filter_dropWhile fun c hc ↦ (hspace c hc).1, ht, hdrop]
  refine ⟨t.takeWhile (!Text.isWordChar ·), (t.dropWhile (!Text.isWordChar ·)).dropWhile
    Operand.inName, ?_, ?_, ?_, ?_, ?_⟩
  · exact fun c hc ↦ (List.takeWhile_prefix _).subset hc
  · exact fun c hc ↦ (List.dropWhile_suffix _).subset ((List.dropWhile_suffix _).subset hc)
  · rw [filter_takeWhile fun c hc ↦ (hspace c hc).1, ht, htake]
  · rw [filter_dropWhile fun c hc ↦ (hspace c hc).2, hrest, hafter]
  · rw [Operand.renameText, filter_takeWhile fun c hc ↦ (hspace c hc).2, hrest, hword]

theorem mem_renameText (h : Plain name) (hf : ∀ c ∈ f name, Text.isWordChar c = true)
    (frame : Frame) (ht : t.filter (· ≠ ' ') = frame.text name) :
    ∀ c ∈ Operand.renameText f t, c ∈ t ∨ Text.isWordChar c = true := by
  obtain ⟨p, q, hp, hq, -, -, hrename⟩ := exists_renameText (f := f) h frame ht
  intro c hc
  rw [hrename, List.mem_append, List.mem_append] at hc
  obtain hc | hc | hc := hc
  · exact .inl (hp c hc)
  · exact .inr (hf c hc)
  · exact .inl (hq c hc)

theorem filter_renameText (h : Plain name) (hf : ∀ c ∈ f name, Text.isWordChar c = true)
    (frame : Frame) (ht : t.filter (· ≠ ' ') = frame.text name) :
    (Operand.renameText f t).filter (· ≠ ' ') = frame.text (f name) := by
  have hname : (f name).filter (· ≠ ' ') = f name := by
    refine List.filter_eq_self.2 fun c hc ↦ decide_eq_true ?_
    rintro rfl
    exact absurd (hf _ hc) (by decide)
  obtain ⟨p, q, -, -, hp, hq, hrename⟩ := exists_renameText (f := f) h frame ht
  rw [hrename, List.filter_append, List.filter_append, hp, hq, hname]
  rfl

theorem Solid.isBlank_text {frame : Frame} (hs : frame.Solid) (h : Plain name) :
    ∀ c ∈ frame.text name, Text.isBlank c = false := by
  have hbefore : ∀ c ∈ frame.before, Text.isBlank c = false := by
    have hall : (frame.before.all (!Text.isBlank ·)) = true := by cases frame <;> rfl
    exact fun c hc ↦ by simpa using List.all_eq_true.1 hall c hc
  simp only [text, List.forall_mem_append]
  exact ⟨hbefore, fun c hc ↦ Text.isBlank_of_isWordChar (h.word c hc), hs⟩

end Frame

namespace Mnemonic

variable {m : Mnemonic} {f : Text → Text} {name t : Text} {r : Reading}

theorem read?_text (h : Plain name) (hf : Plain (f name)) (frame : Frame) :
    m.read? (frame.text (f name)) = (m.read? (frame.text name)).map (Reading.rename f) := by
  rw [read?, read?, List.map_findSome?]
  refine congrArg (AddressingMode.matchOrder.findSome? ·) (funext fun mode ↦ ?_)
  rw [Function.comp_apply, reading?, reading?, AddressingMode.operand?_text h,
    AddressingMode.operand?_text hf, frame.operand?_rename]
  split
  · cases frame.operand? mode name with
    | none => rfl
    | some o => rfl
  · rfl

/-- An instruction that reads a label reads another in its place, whatever its name. -/
theorem exists_frame (hr : m.read? (t.filter (· ≠ ' ')) = some r)
    (hn : r.operand.name? = some name) (h : Plain name) (hf : Plain (f name)) :
    ∃ frame : Frame, frame.Solid ∧ t.filter (· ≠ ' ') = frame.text name ∧
      m.read? (frame.text (f name)) = some (r.rename f) := by
  obtain ⟨frame, hs, ht⟩ := AddressingMode.exists_frame (read?_some hr).2.2 hn
  refine ⟨frame, hs, ht, ?_⟩
  rw [read?_text h hf, ← ht, hr, Option.map_some]

end Mnemonic

end Micro6502
