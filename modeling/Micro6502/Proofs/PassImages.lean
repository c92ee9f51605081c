import Micro6502.Proofs.KnownLabels
import Micro6502.Proofs.Labels
import Micro6502.Proofs.Layout

namespace Micro6502

namespace Operand

def name? : Operand → Option Text
  | .none | .hex _ | .decimal _ => Option.none
  | .label name | .lowByte name | .highByte name => some name

end Operand

namespace Reading

/-- The operand on a line names a label, if any, that this line or an earlier one defines, or half
of one that no line defines. -/
def Settled (lines : List Text) (i : Nat) (r : Reading) : Prop :=
  ∀ name, r.operand.name? = some name →
    (∃ text ∈ lines.take (i + 1), Line.Defines text name) ∨
      (r.operand = .lowByte name ∨ r.operand = .highByte name) ∧
        ∀ text ∈ lines, ¬ Line.Defines text name

/-- The operand on a line names a label that later lines define, and no other line. -/
def Forward (lines : List Text) (i : Nat) (r : Reading) : Prop :=
  ∃ name, r.operand.name? = some name ∧ (∀ text ∈ lines.take (i + 1), ¬ Line.Defines text name) ∧
    ∃ text ∈ lines.drop (i + 1), Line.Defines text name

theorem Settled.not_forward {lines : List Text} {i : Nat} {r : Reading} (h : r.Settled lines i) :
    ¬ r.Forward lines i := by
  rintro ⟨name, hname, htake, text, htext, hd⟩
  obtain ⟨u, hu, hud⟩ | ⟨-, hnone⟩ := h name hname
  · exact htake u hu hud
  · exact hnone text (List.mem_of_mem_drop htext) hd

end Reading

namespace Site

variable {pc : UInt16} {s t : SymbolTable} {mode : AddressingMode} {o : Operand}
  {bs : List UInt8}

theorem branchOffset_index_of_commit {target : UInt16} {b : UInt8}
    (h : (Site.mk pc .commit t).branchOffset target = .ok b) :
    (Site.mk pc .index s).branchOffset target = .ok b := by
  obtain ⟨hd, rfl⟩ := (branchOffset_commit_eq_ok_iff rfl).1 h
  exact branchOffset_of_reach hd

theorem resolve_index_of_known {name : Text} {a : Option UInt16}
    (hn : s.address? name = t.address? name) (h : (Site.mk pc .commit t).resolve name = .ok a) :
    (Site.mk pc .index s).resolve name = .ok a := by
  unfold resolve at h ⊢
  dsimp only at h ⊢
  rw [hn]
  cases hb : t.address? name with
  | none =>
    rw [hb] at h
    cases h
  | some b =>
    rw [hb] at h
    exact h

theorem numberBytes_index_of_commit {v : Nat}
    (h : (Site.mk pc .commit t).numberBytes mode v = .ok bs) :
    (Site.mk pc .index s).numberBytes mode v = .ok bs := by
  by_cases hr : mode = .relative
  · simp only [numberBytes, if_pos hr] at h ⊢
    obtain ⟨target, ht, h⟩ := Except.bind_eq_ok_iff.1 h
    obtain ⟨offset, ho, h⟩ := Except.bind_eq_ok_iff.1 h
    rw [ht, Except.ok_bind, branchOffset_index_of_commit ho]
    exact h
  · simp only [numberBytes, if_neg hr] at h ⊢
    exact h

theorem operandBytes_index_of_known
    (hn : ∀ name, o.name? = some name → s.address? name = t.address? name)
    (h : (Site.mk pc .commit t).operandBytes mode o = .ok bs) :
    (Site.mk pc .index s).operandBytes mode o = .ok bs := by
  cases o with
  | none | decimal ds => exact h
  | hex ds =>
    obtain ⟨v, hv, h⟩ := Except.bind_eq_ok_iff.1 h
    exact Except.bind_eq_ok_iff.2 ⟨v, hv, numberBytes_index_of_commit h⟩
  | label name =>
    obtain ⟨a, ha, h⟩ := Except.bind_eq_ok_iff.1 h
    have hresolve := resolve_index_of_known (s := s) (hn name rfl) ha
    simp only [operandBytes, hresolve, Except.ok_bind]
    split at h
    · rename_i hr
      rw [if_pos hr]
      cases a with
      | none => exact h
      | some target =>
        obtain ⟨offset, ho, rfl⟩ := Except.map_eq_ok_iff.1 h
        exact Except.map_eq_ok_iff.2 ⟨offset, branchOffset_index_of_commit ho, rfl⟩
    · rename_i hr
      rw [if_neg hr]
      exact h
  | lowByte name | highByte name =>
    simp only [operandBytes, hn name rfl] at h ⊢
    exact h

theorem encode_index_of_commit (s : SymbolTable) {m : Mnemonic} {text : Text}
    (h : (Site.mk pc .commit t).encode m text = .ok bs) :
    ∃ r opcode xs ys, m.read? text = some r ∧
      Instruction.decode opcode = some r.toInstruction ∧
      (Site.mk pc .index s).encode m text = .ok (opcode :: xs) ∧ bs = opcode :: ys ∧
      xs.length = ys.length ∧
      ((∀ name, r.operand.name? = some name → s.address? name = t.address? name) → xs = ys) := by
  obtain ⟨r, opcode, ys, hr, ho, hys, rfl⟩ := encode_eq_ok_iff.1 h
  obtain ⟨cs, hcs, hlength⟩ : ∃ cs, (Site.mk pc .index s).encode m text = .ok cs ∧
      cs.length = (opcode :: ys).length := encode_index h
  obtain ⟨r', opcode', xs, hr', ho', hxs, rfl⟩ := encode_eq_ok_iff.1 hcs
  obtain rfl : r = r' := Option.some.inj (hr.symm.trans hr')
  obtain rfl : opcode = opcode' := Instruction.decode_inj ho ho'
  refine ⟨r, opcode, xs, ys, hr, ho, hcs, rfl, Nat.succ.inj hlength, ?_⟩
  intro hknown
  exact Except.ok.inj (hxs.symm.trans (operandBytes_index_of_known hknown hys))

end Site

namespace Effect

theorem Alike.map_fst_writes {e e' : Effect} (h : e.Alike e') (pc : Nat) :
    (e.writes pc).map Prod.fst = (e'.writes pc).map Prod.fst := by
  cases e with
  | bytes vs =>
    cases e' with
    | bytes ws =>
      have hl : vs.length = ws.length := h
      rw [writes, writes, map_fst_place, map_fst_place, hl]
    | relocate b => exact h.elim
  | relocate a =>
    cases e' with
    | bytes ws => exact h.elim
    | relocate b => rfl

end Effect

theorem Statement.instruct_eq_ok_iff {pass : Pass} {t : SymbolTable} {pc : Nat}
    {name operand : Text} {bs : List UInt8} :
    instruct pass t pc name operand = .ok bs ↔ ∃ m, Mnemonic.ofName? name = some m ∧
      pc ≤ 0xFFFF ∧ (Site.mk (UInt16.ofNat pc) pass t).encode m operand = .ok bs := by
  unfold instruct
  cases Mnemonic.ofName? name with
  | none => simp
  | some m =>
    by_cases hpc : pc ≤ 0xFFFF
    · simp [hpc]
    · simp [hpc]

namespace Visit

variable {v w : Visit} {vs ws : List Visit} {i : Nat}

theorem agrees_of_getElem? (h : List.Forall₂ Agrees vs ws) (hv : vs[i]? = some v)
    (hw : ws[i]? = some w) : v.Agrees w := by
  obtain ⟨hi, rfl⟩ := List.getElem?_eq_some_iff.1 hv
  obtain ⟨hj, rfl⟩ := List.getElem?_eq_some_iff.1 hw
  exact h.get hi hj

theorem map_fst_writes (h : List.Forall₂ Agrees vs ws) :
    (vs.flatMap writes).map Prod.fst = (ws.flatMap writes).map Prod.fst := by
  induction h with
  | nil => rfl
  | @cons v w vs ws hvw _ ih =>
    have hv : v.writes.map Prod.fst = w.writes.map Prod.fst := by
      rw [writes, writes, hvw.pc]
      exact hvw.effect.map_fst_writes w.pc
    rw [List.flatMap_cons, List.flatMap_cons, List.map_append, List.map_append, hv, ih]

theorem flatMap_writes_eq (h : List.Forall₂ Agrees vs ws)
    (he : ∀ (i : Nat) (v w : Visit), vs[i]? = some v → ws[i]? = some w → v.effect = w.effect) :
    vs.flatMap writes = ws.flatMap writes := by
  induction h with
  | nil => rfl
  | @cons v w vs ws hvw _ ih =>
    have hv : v.writes = w.writes := by
      rw [writes, writes, hvw.pc, he 0 v w rfl rfl]
    have hrest := ih fun i v w hiv hiw ↦ he (i + 1) v w hiv hiw
    rw [List.flatMap_cons, List.flatMap_cons, hv, hrest]

end Visit

namespace Pass

variable {number pc end_ end' i : Nat} {s s' t t' : SymbolTable} {text name : Text}
  {lines : List Text} {e e' : Effect} {v w : Visit}

/-- One line in both passes: the effect is the same, or that of an instruction whose operand names a
label that the index pass does not know as the commit pass does. -/
theorem effect_line_index (hi : index.line number pc s text = .ok (s', e))
    (hc : commit.line number pc t text = .ok (t', e')) :
    e = e' ∨ ∃ r opcode bs cs, Visit.reading? ⟨number, pc, text, e⟩ = some r ∧
      Instruction.decode opcode = some r.toInstruction ∧
      e = .bytes (opcode :: bs) ∧ e' = .bytes (opcode :: cs) ∧ bs.length = cs.length ∧
      ((∀ name, r.operand.name? = some name → s'.address? name = t.address? name) → bs = cs) := by
  obtain ⟨-, l, hl, hc⟩ := line_commit_ok hc
  obtain ⟨hn, -⟩ | ⟨l', hl', -, hi⟩ := line_eq_ok_iff.1 hi
  · exact absurd (hl.symm.trans hn) nofun
  · obtain rfl : l = l' := Option.some.inj (hl.symm.trans hl')
    cases hst : l.statement with
    | empty | relocate target | bytes list =>
      rw [hst] at hi hc
      have hsame : index.excuse (.ok e') = .ok e := by
        rw [← hc]
        exact hi
      rw [excuse_ok] at hsame
      exact .inl (Except.ok.inj hsame).symm
    | instruction name operand =>
      rw [hst] at hi hc
      obtain ⟨f, hf, hfit⟩ := Except.bind_eq_ok_iff.1 hc
      obtain rfl := Effect.fit_ok hfit
      obtain ⟨values, hvalues, rfl⟩ := Except.map_eq_ok_iff.1 hf
      obtain ⟨m, hm, hpc, hencode⟩ := Statement.instruct_eq_ok_iff.1 hvalues
      obtain ⟨r, opcode, bs, cs, hr, ho, hindex, rfl, hlength, hsame⟩ :=
        Site.encode_index_of_commit s' hencode
      have heffect : (Statement.instruction name operand).effect index s' pc =
          .ok (.bytes (opcode :: bs)) :=
        Except.map_eq_ok_iff.2 ⟨_, Statement.instruct_eq_ok_iff.2 ⟨m, hm, hpc, hindex⟩, rfl⟩
      have halike : (Effect.bytes (opcode :: bs)).Alike (.bytes (opcode :: cs)) :=
        congrArg (· + 1) hlength
      rw [heffect, Except.ok_bind, halike.fit hfit, excuse_ok] at hi
      refine .inr ⟨r, opcode, bs, cs, ?_, ho, (Except.ok.inj hi).symm, rfl, hlength, hsame⟩
      simp only [Visit.reading?, hl, hst, hm, hr, Option.bind_eq_bind, Option.bind_some]

theorem line_of_getElem?_visits_index (hv : (index.visits number pc s lines)[i]? = some v) :
    ∃ t t', index.line v.number v.pc t v.text = .ok (t', v.effect) ∧ t'.symbols = s.symbols ++
      ((index.visits number pc s lines).take (i + 1)).filterMap Visit.symbol? := by
  induction lines generalizing number pc s i with
  | nil => cases hv
  | cons text rest ih =>
    cases hl : index.line number pc s text with
    | error e =>
      rw [visits_cons_error hl] at hv
      cases hv
    | ok r =>
      obtain ⟨hsymbols, -⟩ := line_index_ok hl
      rw [visits_cons_ok hl] at hv ⊢
      cases i with
      | zero =>
        cases hv
        refine ⟨s, r.1, hl, ?_⟩
        rw [hsymbols, List.take_succ_cons, List.take_zero, Visit.filterMap_symbol?_cons]
        exact congrArg (s.symbols ++ ·) (List.append_nil _).symm
      | succ i =>
        obtain ⟨t, t', hline, ht'⟩ := ih hv
        refine ⟨t, t', hline, ?_⟩
        rw [ht', hsymbols, List.take_succ_cons, Visit.filterMap_symbol?_cons, List.append_assoc]

end Pass

structure ImagesAgree (source : Text) (index commit : List Write) (vs ws : List Visit) : Prop where
  index_eq : index = vs.flatMap Visit.writes
  commit_eq : commit = ws.flatMap Visit.writes
  texts : vs.map Visit.text = source.lines
  lines : List.Forall₂ Visit.Agrees vs ws
  addresses : index.map Prod.fst = commit.map Prod.fst
  settled : ∀ (i : Nat) (v w : Visit), vs[i]? = some v → ws[i]? = some w →
    (∀ r, v.reading? = some r → r.Settled source.lines i) → v.effect = w.effect
  confined : ∀ (i : Nat) (v w : Visit), vs[i]? = some v → ws[i]? = some w → v.effect ≠ w.effect →
    ∃ r opcode bs cs, v.reading? = some r ∧ r.Forward source.lines i ∧
      Instruction.decode opcode = some r.toInstruction ∧ v.effect = .bytes (opcode :: bs) ∧
      w.effect = .bytes (opcode :: cs) ∧ bs.length = cs.length
  identical : (∀ (i : Nat) (v : Visit) (r : Reading), vs[i]? = some v → v.reading? = some r →
    ¬ r.Forward source.lines i) → index = commit

namespace Assembler

variable {a : Assembler} {source name : Text} {end_ end' i : Nat} {v w : Visit}

theorem label?_iff_of_commitWalk (hc : (a.commitWalk source).counter = .ok end') {text : Text}
    (ht : text ∈ source.lines) : Line.label? text = some name ↔ Line.Defines text name := by
  rw [Line.label?_eq_some_iff (Text.newline_not_mem_of_mem_lines ht)]
  -- The commit pass has read every line, so that none keeps its label to itself.
  refine and_iff_right_of_imp fun _ ↦ ?_
  rw [← Pass.map_text_visits hc] at ht
  obtain ⟨w, hw, rfl⟩ := List.mem_map.1 ht
  obtain ⟨l, hl, -⟩ := Pass.statement_of_mem_visits_commit hw
  exact Option.isSome_of_eq_some hl

theorem line_of_getElem?_visits (hi : (a.indexWalk source).counter = .ok end_)
    (hv : (Pass.index.visits 1 a.origin.toNat .empty source.lines)[i]? = some v) :
    ∃ t t' more, Pass.index.line v.number v.pc t v.text = .ok (t', v.effect) ∧
      t'.symbols.map Symbol.name = (source.lines.take (i + 1)).filterMap Line.label? ∧
      (a.indexWalk source).symbols = ⟨t'.symbols ++ more⟩ := by
  obtain ⟨t, t', hline, ht'⟩ := Pass.line_of_getElem?_visits_index hv
  refine ⟨t, t', ((Pass.index.visits 1 a.origin.toNat .empty source.lines).drop (i + 1)).filterMap
    Visit.symbol?, hline, ?_, ?_⟩
  · refine (congrArg (List.map Symbol.name) ht').trans ?_
    refine (Visit.map_name_filterMap_symbol? _).trans ?_
    rw [List.map_take, Pass.map_text_visits hi]
  · rw [ht', List.append_assoc, ← List.filterMap_append, List.take_append_drop]
    exact congrArg SymbolTable.mk Pass.symbols_walk_index

theorem address?_eq_or_forward {t : SymbolTable} {more : List Symbol}
    (hi : (a.indexWalk source).counter = .ok end_) (hc : (a.commitWalk source).counter = .ok end')
    (hnames : t.symbols.map Symbol.name = (source.lines.take (i + 1)).filterMap Line.label?)
    (hmore : (a.indexWalk source).symbols = ⟨t.symbols ++ more⟩) :
    t.address? name = (a.indexWalk source).symbols.address? name ∨
      (∀ text ∈ source.lines.take (i + 1), ¬ Line.Defines text name) ∧
        ∃ text ∈ source.lines.drop (i + 1), Line.Defines text name := by
  by_cases hbefore : ∃ text ∈ source.lines.take (i + 1), Line.Defines text name
  · obtain ⟨text, ht, hd⟩ := hbefore
    have hlabel := (label?_iff_of_commitWalk hc (List.mem_of_mem_take ht)).2 hd
    have hmem : name ∈ t.symbols.map Symbol.name := by
      rw [hnames]
      exact List.mem_filterMap.2 ⟨text, ht, hlabel⟩
    rw [hmore, SymbolTable.address?_append hmem]
    exact .inl rfl
  · push Not at hbefore
    by_cases hafter : ∃ text ∈ source.lines.drop (i + 1), Line.Defines text name
    · exact .inr ⟨hbefore, hafter⟩
    · push Not at hafter
      have hnone : ∀ text ∈ source.lines, ¬ Line.Defines text name := by
        intro text ht
        rw [← List.take_append_drop (i + 1) source.lines, List.mem_append] at ht
        exact ht.elim (hbefore text) (hafter text)
      have hmem : name ∉ (a.indexWalk source).symbols.symbols.map Symbol.name := by
        intro hm
        obtain ⟨s, hs, hn⟩ := List.mem_map.1 hm
        obtain ⟨text, ht, -, hd⟩ := (mem_symbols_indexWalk_iff hi).1 ⟨s, hs, hn⟩
        exact hnone text ht hd
      have hmem' : name ∉ t.symbols.map Symbol.name := by
        intro hm
        rw [hmore, List.map_append] at hmem
        exact hmem (List.mem_append_left _ hm)
      rw [SymbolTable.address?_eq_none hmem, SymbolTable.address?_eq_none hmem']
      exact .inl rfl

theorem effect_eq_or_forward (hi : (a.indexWalk source).counter = .ok end_)
    (hc : (a.commitWalk source).counter = .ok end')
    (hv : (Pass.index.visits 1 a.origin.toNat .empty source.lines)[i]? = some v)
    (hw : (Pass.commit.visits 1 a.origin.toNat (a.indexWalk source).symbols source.lines)[i]? =
      some w) :
    v.effect = w.effect ∨
      ∃ r opcode bs cs, v.reading? = some r ∧ r.Forward source.lines i ∧
        Instruction.decode opcode = some r.toInstruction ∧ v.effect = .bytes (opcode :: bs) ∧
        w.effect = .bytes (opcode :: cs) ∧ bs.length = cs.length := by
  obtain ⟨t, t', more, hline, hnames, hmore⟩ := line_of_getElem?_visits hi hv
  have hwline := Pass.line_of_mem_visits_commit (List.mem_of_getElem? hw)
  have hagree := Visit.agrees_of_getElem? (Pass.visits_agree hi hc) hv hw
  rw [← hagree.number, ← hagree.pc, ← hagree.text] at hwline
  obtain he | ⟨r, opcode, bs, cs, hr, ho, hbs, hcs, hlength, hsame⟩ :=
    Pass.effect_line_index hline hwline
  · exact .inl he
  · by_cases hforward : r.Forward source.lines i
    · exact .inr ⟨r, opcode, bs, cs, hr, hforward, ho, hbs, hcs, hlength⟩
    · left
      have hknown : ∀ name, r.operand.name? = some name →
          t'.address? name = (a.indexWalk source).symbols.address? name := by
        intro name hname
        refine (address?_eq_or_forward hi hc hnames hmore).resolve_right fun h ↦ ?_
        exact hforward ⟨name, hname, h⟩
      rw [hbs, hcs, hsame hknown]

/-- Where both passes succeed, their bytes go to the same addresses, and they are the same but for
the operands that name labels ahead. -/
theorem images_agree {n n' : Nat} (hi : (a.runPass .index source).1 = .ok n)
    (hc : ((a.runPass .index source).2.2.runPass .commit source).1 = .ok n') :
    let index := a.runPass .index source
    let commit := index.2.2.runPass .commit source
    ImagesAgree source index.2.1 commit.2.1
      (Pass.index.visits 1 a.origin.toNat .empty source.lines)
      (Pass.commit.visits 1 a.origin.toNat index.2.2.symbols source.lines) := by
  rw [runPass_index] at hi
  rw [runPass_index, runPass_commit] at hc
  obtain ⟨end_, hi, -⟩ := Except.map_eq_ok_iff.1 hi
  obtain ⟨end', hc, -⟩ := Except.map_eq_ok_iff.1 hc
  have hlines := Pass.visits_agree hi hc
  have hindex : (a.indexWalk source).writes = _ := Pass.writes_walk
  have hcommit : (a.commitWalk source).writes = _ := Pass.writes_walk
  constructor
  case index_eq => exact hindex
  case commit_eq => exact hcommit
  case texts => exact Pass.map_text_visits hi
  case lines => exact hlines
  case addresses =>
    refine (congrArg (List.map Prod.fst) hindex).trans ?_
    exact (Visit.map_fst_writes hlines).trans (congrArg (List.map Prod.fst) hcommit.symm)
  case settled =>
    intro i v w hv hw hsettled
    refine (effect_eq_or_forward hi hc hv hw).resolve_right ?_
    rintro ⟨r, opcode, bs, cs, hr, hforward, -⟩
    exact (hsettled r hr).not_forward hforward
  case confined =>
    intro i v w hv hw hne
    exact (effect_eq_or_forward hi hc hv hw).resolve_left hne
  case identical =>
    intro hnone
    refine hindex.trans (Eq.trans ?_ hcommit.symm)
    refine Visit.flatMap_writes_eq hlines ?_
    intro i v w hv hw
    refine (effect_eq_or_forward hi hc hv hw).resolve_right ?_
    rintro ⟨r, opcode, bs, cs, hr, hforward, -⟩
    exact hnone i v r hv hr hforward

def mixed : Text := "back: LDX #<ahead\nBNE back\nLDA #>none\nJMP ahead\nahead: BEQ ahead".toList

theorem images_agree_mixed :
    let index := standard.runPass .index mixed
    let commit := index.2.2.runPass .commit mixed
    index.1 = .ok 11 ∧ commit.1 = .ok 11 ∧
      ImagesAgree mixed index.2.1 commit.2.1
        (Pass.index.visits 1 standard.origin.toNat .empty mixed.lines)
        (Pass.commit.visits 1 standard.origin.toNat index.2.2.symbols mixed.lines) ∧
      index.2.1.map Prod.snd = [0xA2, 0, 0xD0, 0xFC, 0xA9, 0, 0x4C, 0x34, 0x12, 0xF0, 0xFE] ∧
      commit.2.1.map Prod.snd = [0xA2, 9, 0xD0, 0xFC, 0xA9, 0, 0x4C, 9, 6, 0xF0, 0xFE] := by
  intro index commit
  have hi : index.1 = .ok 11 := by decide +kernel
  have hc : commit.1 = .ok 11 := by decide +kernel
  exact ⟨hi, hc, images_agree hi hc, by decide +kernel, by decide +kernel⟩

end Assembler

end Micro6502
