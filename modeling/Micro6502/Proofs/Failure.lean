import Micro6502.Proofs.EncodingErrors
import Micro6502.Proofs.LineLabel
import Micro6502.Proofs.Visit

namespace Micro6502

namespace Site

theorem address?_of_encode {site : Site} {m : Mnemonic} {text name : Text}
    (h : site.encode m text = .error (.unresolvedLabel name)) :
    site.symbols.address? name = none := by
  cases encode_eq_error_iff.1 h with
  | label mode name hp hselects ha => exact ha

end Site

namespace Statement

variable {st : Statement} {pass : Pass} {t : SymbolTable} {pc : Nat} {name entry target : Text}
  {e : LineError}

theorem literal_eq_error_iff : literal entry = .error e ↔
    Numeral.parse? entry = none ∧ .invalidByte entry = e ∨
      ∃ v, Numeral.parse? entry = some v ∧ 0xFF < v ∧ .valueOutOfRange v 0xFF = e := by
  unfold literal
  cases Numeral.parse? entry with
  | none => simp
  | some v => simp [Literal.byte_eq_error_iff]

theorem relocation_eq_error_iff : relocation target = .error e ↔
    Numeral.parse? target = none ∧ .invalidNumber target.trim = e ∨
      ∃ v, Numeral.parse? target = some v ∧ 0xFFFF < v ∧ .relocationOutOfRange = e := by
  unfold relocation
  cases Numeral.parse? target with
  | none => simp
  | some v =>
    by_cases hv : v ≤ 0xFFFF
    · simp [hv, Nat.not_lt.2 hv]
    · simp [hv, Nat.lt_of_not_le hv]

theorem address?_of_effect (h : st.effect pass t pc = .error (.unresolvedLabel name)) :
    t.address? name = none := by
  cases st with
  | empty => cases h
  | relocate target =>
    obtain ⟨-, hr⟩ | ⟨v, -, -, hr⟩ := relocation_eq_error_iff.1 h
    · cases hr
    · cases hr
  | bytes list =>
    obtain ⟨entry, -, h⟩ := Except.exists_of_mapM_eq_error (Except.map_eq_error_iff.1 h)
    obtain ⟨-, hr⟩ | ⟨v, -, -, hr⟩ := literal_eq_error_iff.1 h
    · cases hr
    · cases hr
  | instruction m operand =>
    have hi := Except.map_eq_error_iff.1 h
    unfold instruct at hi
    split at hi
    · cases hi
    · split at hi
      · exact Site.address?_of_encode hi
      · cases hi

end Statement

theorem Effect.fit_eq_error_iff {effect : Effect} {pc : Nat} {e : LineError} :
    effect.fit pc = .error e ↔ 0x10000 < effect.next pc ∧ .addressOverflow = e := by
  cases effect with
  | bytes vs =>
    by_cases h : pc + vs.length ≤ 0x10000
    · simp [fit, next, h, Nat.not_lt.2 h]
    · simp [fit, next, h, Nat.lt_of_not_le h]
  | relocate a => simp [fit, next, Nat.not_lt.2 (Nat.le_of_lt a.toNat_lt)]

namespace Pass

variable {pass : Pass} {number pc pc' : Nat} {s t : SymbolTable} {text name : Text}
  {before after lines : List Text} {e : LineError} {f : LineFailure}

theorem walk_append_error (hb : (pass.walk number pc s before).counter = .ok pc')
    (hl : pass.line (number + before.length) pc' (pass.walk number pc s before).symbols text =
      .error e) :
    pass.walk number pc s (before ++ text :: after) =
      { pass.walk number pc s before with
        counter := .error ⟨number + before.length, text, e⟩ } := by
  induction before generalizing number pc s with
  | nil =>
    cases hb
    exact walk_cons_error hl
  | cons first before ih =>
    obtain ⟨s', effect, hfirst, hrest⟩ := walk_cons_counter hb
    have hn : number + (first :: before).length = number + 1 + before.length := by
      rw [List.length_cons]
      omega
    rw [hn, walk_cons_ok hfirst] at hl
    rw [hn, List.cons_append, walk_cons_ok hfirst, walk_cons_ok hfirst, ih hrest hl]

/-- A pass fails on the first line that fails, and the lines before it are read. -/
theorem exists_of_walk_error (h : (pass.walk number pc s lines).counter = .error f) :
    ∃ before after pc', lines = before ++ f.text :: after ∧ f.line = number + before.length ∧
      (pass.walk number pc s before).counter = .ok pc' ∧
      pass.line f.line pc' (pass.walk number pc s before).symbols f.text = .error f.reason := by
  induction lines generalizing number pc s with
  | nil => cases h
  | cons text rest ih =>
    cases hl : pass.line number pc s text with
    | error e =>
      rw [walk_cons_error hl] at h
      cases h
      exact ⟨[], rest, pc, rfl, rfl, rfl, hl⟩
    | ok r =>
      rw [walk_cons_ok hl] at h
      obtain ⟨before, after, pc', hlines, hnumber, hbefore, hline⟩ := ih h
      refine ⟨text :: before, after, pc', by rw [hlines, List.cons_append], ?_, ?_, ?_⟩
      · rw [hnumber, List.length_cons]
        omega
      · rw [walk_cons_ok hl]
        exact hbefore
      · rw [walk_cons_ok hl]
        exact hline

theorem declare_index_eq_error_iff {label : Option Text} :
    index.declare number pc label s = .error e ↔ ∃ name, label = some name ∧
      (0xFFFF < pc ∧ e = .addressOverflow ∨ pc ≤ 0xFFFF ∧
        ∃ first, s.find? name = some first ∧ e = .labelRedefined name first.line) := by
  cases label with
  | none => simp [declare]
  | some name =>
    simp only [declare, SymbolTable.insert, Option.some.injEq, exists_eq_left']
    by_cases hpc : pc ≤ 0xFFFF
    · rw [if_pos hpc]
      cases s.find? name with
      | none => simp [hpc, Nat.not_lt.2 hpc]
      | some first => simp [hpc, Nat.not_lt.2 hpc, eq_comm]
    · rw [if_neg hpc]
      simp [hpc, eq_comm, Nat.lt_of_not_le hpc]

theorem excuse_index_ne_error (r : Except LineError Effect) : index.excuse r ≠ .error e := by
  cases r with
  | error e' => exact nofun
  | ok effect => exact nofun

/-- The index pass fails on a label without an address in memory, and on one that is known. -/
theorem line_index_eq_error_iff : index.line number pc s text = .error e ↔
    ∃ name, Line.label? text = some name ∧
      (0xFFFF < pc ∧ e = .addressOverflow ∨ pc ≤ 0xFFFF ∧
        ∃ first, s.find? name = some first ∧ e = .labelRedefined name first.line) := by
  unfold line Line.label?
  cases Line.parse? text with
  | none => simp [excuse]
  | some l =>
    have hdeclare : index.declare number pc l.label s = .error e ↔ _ := declare_index_eq_error_iff
    rw [Option.bind_some, ← hdeclare, Except.bind_eq_error_iff]
    refine or_iff_left ?_
    rintro ⟨s', -, h⟩
    obtain h | ⟨effect, -, h⟩ := Except.bind_eq_error_iff.1 h
    · exact excuse_index_ne_error _ h
    · cases h

/-- Why the commit pass fails on a line: it has no known shape, it does not compile, or its bytes
reach beyond the end of memory. -/
inductive Refuses (t : SymbolTable) (pc : Nat) (text : Text) : LineError → Prop where
  | unreadable : Line.parse? text = none → Refuses t pc text .malformed
  | uncompiled (l : Line) (e : LineError) : Line.parse? text = some l →
      l.statement.effect commit t pc = .error e → Refuses t pc text e
  | overflowing (l : Line) (effect : Effect) : Line.parse? text = some l →
      l.statement.effect commit t pc = .ok effect → 0x10000 < effect.next pc →
      Refuses t pc text .addressOverflow

theorem line_commit_of_none (hl : Line.parse? text = none) :
    commit.line number pc t text = .error .malformed := by
  rw [line, hl]
  rfl

theorem line_commit_of_some {l : Line} (hl : Line.parse? text = some l) :
    commit.line number pc t text =
      (l.statement.effect commit t pc >>= Effect.fit pc).map (t, ·) := by
  have hdeclare : commit.declare number pc l.label t = .ok t := rfl
  rw [line, hl]
  simp only [hdeclare, Except.ok_bind, excuse_commit]
  cases l.statement.effect commit t pc >>= Effect.fit pc with
  | error e => rfl
  | ok effect => rfl

theorem line_commit_eq_error_iff : commit.line number pc t text = .error e ↔
    Refuses t pc text e := by
  constructor
  · intro h
    cases hl : Line.parse? text with
    | none =>
      rw [line_commit_of_none hl] at h
      cases h
      exact .unreadable hl
    | some l =>
      rw [line_commit_of_some hl, Except.map_eq_error_iff] at h
      obtain he | ⟨effect, he, hfit⟩ := Except.bind_eq_error_iff.1 h
      · exact .uncompiled l e hl he
      · obtain ⟨hnext, rfl⟩ := Effect.fit_eq_error_iff.1 hfit
        exact .overflowing l effect hl he hnext
  · intro h
    cases h with
    | unreadable hl => exact line_commit_of_none hl
    | uncompiled l e hl he =>
      rw [line_commit_of_some hl, Except.map_eq_error_iff, Except.bind_eq_error_iff]
      exact .inl he
    | overflowing l effect hl he hnext =>
      rw [line_commit_of_some hl, Except.map_eq_error_iff, Except.bind_eq_error_iff]
      exact .inr ⟨effect, he, Effect.fit_eq_error_iff.2 ⟨hnext, rfl⟩⟩

theorem address?_of_line_commit
    (h : commit.line number pc t text = .error (.unresolvedLabel name)) :
    t.address? name = none := by
  cases line_commit_eq_error_iff.1 h with
  | uncompiled l e hl he => exact Statement.address?_of_effect he

theorem address?_of_walk_commit (h : (commit.walk number pc t lines).counter = .error f)
    (hf : f.reason = .unresolvedLabel name) : t.address? name = none := by
  obtain ⟨before, after, pc', -, -, -, hline⟩ := exists_of_walk_error h
  rw [symbols_walk_commit, hf] at hline
  exact address?_of_line_commit hline

end Pass

end Micro6502
