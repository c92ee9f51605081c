import Micro6502.Assembly.Pass
import Micro6502.Proofs.Except
import Micro6502.Proofs.SymbolTable

namespace Micro6502

/-- A line that a pass has read without failure. -/
structure Visit where
  number : Nat
  pc : Nat
  text : Text
  effect : Effect

namespace Visit

variable (v : Visit)

def next : Nat := v.effect.next v.pc

def writes : List Write := v.effect.writes v.pc

def label? : Option Text := (Line.parse? v.text).bind Line.label

def symbol? : Option Symbol := v.label?.map (⟨·, UInt16.ofNat v.pc, v.number⟩)

theorem filterMap_symbol?_cons (vs : List Visit) :
    (v :: vs).filterMap symbol? = v.symbol?.toList ++ vs.filterMap symbol? := by
  rw [List.filterMap_cons]
  cases v.symbol? with
  | none => rfl
  | some s => rfl

end Visit

namespace Pass

variable {pass : Pass} {number pc : Nat} {symbols symbols' : SymbolTable} {text : Text}
  {lines : List Text} {effect : Effect} {end_ : Nat}

/-- The lines that a pass reads before it ends or fails. -/
def visits (pass : Pass) : Nat → Nat → SymbolTable → List Text → List Visit
  | _, _, _, [] => []
  | number, pc, symbols, text :: rest =>
    match pass.line number pc symbols text with
    | .error _ => []
    | .ok (symbols, effect) =>
      ⟨number, pc, text, effect⟩ :: pass.visits (number + 1) (effect.next pc) symbols rest

theorem walk_cons_ok {rest : List Text}
    (h : pass.line number pc symbols text = .ok (symbols', effect)) :
    pass.walk number pc symbols (text :: rest) =
      let r := pass.walk (number + 1) (effect.next pc) symbols' rest
      { r with writes := effect.writes pc ++ r.writes } := by
  simp only [walk, h]

theorem walk_cons_error {rest : List Text} {e : LineError}
    (h : pass.line number pc symbols text = .error e) :
    pass.walk number pc symbols (text :: rest) = ⟨symbols, [], .error ⟨number, text, e⟩⟩ := by
  simp only [walk, h]

theorem visits_cons_ok {rest : List Text}
    (h : pass.line number pc symbols text = .ok (symbols', effect)) :
    pass.visits number pc symbols (text :: rest) =
      ⟨number, pc, text, effect⟩ :: pass.visits (number + 1) (effect.next pc) symbols' rest := by
  simp only [visits, h]

theorem visits_cons_error {rest : List Text} {e : LineError}
    (h : pass.line number pc symbols text = .error e) :
    pass.visits number pc symbols (text :: rest) = [] := by
  simp only [visits, h]

theorem walk_cons_counter {rest : List Text}
    (h : (pass.walk number pc symbols (text :: rest)).counter = .ok end_) :
    ∃ symbols' effect, pass.line number pc symbols text = .ok (symbols', effect) ∧
      (pass.walk (number + 1) (effect.next pc) symbols' rest).counter = .ok end_ := by
  cases hl : pass.line number pc symbols text with
  | error e =>
    rw [walk_cons_error hl] at h
    cases h
  | ok r =>
    rw [walk_cons_ok hl] at h
    exact ⟨_, _, rfl, h⟩

theorem writes_walk : (pass.walk number pc symbols lines).writes =
    (pass.visits number pc symbols lines).flatMap Visit.writes := by
  induction lines generalizing number pc symbols with
  | nil => rfl
  | cons text rest ih =>
    cases hl : pass.line number pc symbols text with
    | error e => rw [walk_cons_error hl, visits_cons_error hl, List.flatMap_nil]
    | ok r =>
      rw [walk_cons_ok hl, visits_cons_ok hl, List.flatMap_cons, ← ih]
      rfl

theorem map_text_visits (h : (pass.walk number pc symbols lines).counter = .ok end_) :
    (pass.visits number pc symbols lines).map Visit.text = lines := by
  induction lines generalizing number pc symbols with
  | nil => rfl
  | cons text rest ih =>
    obtain ⟨symbols', effect, hl, hr⟩ := walk_cons_counter h
    rw [visits_cons_ok hl, List.map_cons, ih hr]

theorem map_number_visits (h : (pass.walk number pc symbols lines).counter = .ok end_) :
    (pass.visits number pc symbols lines).map Visit.number = List.range' number lines.length := by
  induction lines generalizing number pc symbols with
  | nil => rfl
  | cons text rest ih =>
    obtain ⟨symbols', effect, hl, hr⟩ := walk_cons_counter h
    rw [visits_cons_ok hl, List.map_cons, ih hr, List.length_cons, List.range'_succ]

theorem counter_walk_take {i : Nat} {v : Visit}
    (h : (pass.visits number pc symbols lines)[i]? = some v) :
    (pass.walk number pc symbols (lines.take i)).counter = .ok v.pc := by
  induction lines generalizing number pc symbols i with
  | nil => exact absurd h nofun
  | cons text rest ih =>
    cases hl : pass.line number pc symbols text with
    | error e =>
      rw [visits_cons_error hl] at h
      exact absurd h nofun
    | ok r =>
      rw [visits_cons_ok hl] at h
      cases i with
      | zero =>
        cases h
        rfl
      | succ i =>
        rw [List.take_succ_cons, walk_cons_ok hl]
        exact ih h

@[simp] theorem excuse_commit (r : Except LineError Effect) : commit.excuse r = r := by
  cases r <;> rfl

@[simp] theorem excuse_ok (pass : Pass) (effect : Effect) :
    pass.excuse (.ok effect) = .ok effect := by
  cases pass <;> rfl

theorem line_eq_ok_iff : pass.line number pc symbols text = .ok (symbols', effect) ↔
    (Line.parse? text = none ∧ pass = .index ∧ symbols' = symbols ∧ effect = .bytes []) ∨
    ∃ l, Line.parse? text = some l ∧ pass.declare number pc l.label symbols = .ok symbols' ∧
      pass.excuse (l.statement.effect pass symbols' pc >>= Effect.fit pc) = .ok effect := by
  unfold line
  cases Line.parse? text with
  | none =>
    cases pass with
    | index => simp [excuse, eq_comm]
    | commit => simp [Except.map_eq_ok_iff]
  | some l =>
    simp only [Except.bind_eq_ok_iff, pure, Except.pure, Except.ok.injEq, Prod.mk.injEq]
    constructor
    · rintro ⟨s, hs, e, he, rfl, rfl⟩
      exact .inr ⟨l, rfl, hs, he⟩
    · rintro (⟨h, -⟩ | ⟨l', hl, hs, he⟩)
      · exact absurd h nofun
      · cases hl
        exact ⟨_, hs, _, he, rfl, rfl⟩

theorem line_commit_ok (h : commit.line number pc symbols text = .ok (symbols', effect)) :
    symbols' = symbols ∧ ∃ l, Line.parse? text = some l ∧
      (l.statement.effect commit symbols pc >>= Effect.fit pc) = .ok effect := by
  obtain ⟨-, hp, -⟩ | ⟨l, hl, hd, he⟩ := line_eq_ok_iff.1 h
  · cases hp
  · obtain rfl : symbols = symbols' := Except.ok.inj hd
    exact ⟨rfl, l, hl, by simpa only [excuse_commit] using he⟩

theorem declare_index_ok {label : Option Text}
    (h : index.declare number pc label symbols = .ok symbols') :
    symbols'.symbols =
        symbols.symbols ++ (label.map (⟨·, UInt16.ofNat pc, number⟩ : Text → Symbol)).toList ∧
      ∀ name, label = some name → pc ≤ 0xFFFF ∧ symbols.find? name = none := by
  cases label with
  | none =>
    cases h
    exact ⟨(List.append_nil _).symm, nofun⟩
  | some name =>
    simp only [declare, SymbolTable.insert] at h
    split at h
    · rename_i hpc
      cases hf : symbols.find? name with
      | none =>
        rw [hf] at h
        cases h
        exact ⟨rfl, fun _ hn ↦ Option.some.inj hn ▸ ⟨hpc, hf⟩⟩
      | some existing =>
        rw [hf] at h
        cases h
    · cases h

theorem symbols_walk_commit : (commit.walk number pc symbols lines).symbols = symbols := by
  induction lines generalizing number pc with
  | nil => rfl
  | cons text rest ih =>
    cases hl : commit.line number pc symbols text with
    | error e => rw [walk_cons_error hl]
    | ok r =>
      obtain ⟨rfl, -⟩ := line_commit_ok hl
      rw [walk_cons_ok hl]
      exact ih

theorem line_of_mem_visits_commit {v : Visit}
    (hv : v ∈ commit.visits number pc symbols lines) :
    commit.line v.number v.pc symbols v.text = .ok (symbols, v.effect) := by
  induction lines generalizing number pc with
  | nil => exact absurd hv List.not_mem_nil
  | cons text rest ih =>
    cases hl : commit.line number pc symbols text with
    | error e =>
      rw [visits_cons_error hl] at hv
      exact absurd hv List.not_mem_nil
    | ok r =>
      obtain ⟨rfl, -⟩ := line_commit_ok hl
      rw [visits_cons_ok hl] at hv
      obtain rfl | hv := List.mem_cons.1 hv
      · exact hl
      · exact ih hv

theorem line_index_ok (h : index.line number pc symbols text = .ok (symbols', effect)) :
    symbols'.symbols =
        symbols.symbols ++ (Visit.symbol? ⟨number, pc, text, effect⟩).toList ∧
      ∀ name, Visit.label? ⟨number, pc, text, effect⟩ = some name →
        pc ≤ 0xFFFF ∧ symbols.find? name = none := by
  obtain ⟨hl, -, rfl, -⟩ | ⟨l, hl, hd, -⟩ := line_eq_ok_iff.1 h
  · simp [Visit.symbol?, Visit.label?, hl]
  · simpa only [Visit.symbol?, Visit.label?, hl, Option.bind_some] using declare_index_ok hd

theorem distinct_line_index (hs : symbols.Distinct)
    (h : index.line number pc symbols text = .ok (symbols', effect)) : symbols'.Distinct := by
  obtain ⟨ht, hn⟩ := line_index_ok h
  have he : symbols' = ⟨symbols'.symbols⟩ := rfl
  rw [he, ht]
  simp only [Visit.symbol?] at hn ⊢
  cases hl : Visit.label? ⟨number, pc, text, effect⟩ with
  | none => simpa using hs
  | some name => exact hs.append (hn name hl).2

/-- The index pass lists the labels of the lines it comes to, in their order. -/
theorem symbols_walk_index : (index.walk number pc symbols lines).symbols.symbols =
    symbols.symbols ++ (index.visits number pc symbols lines).filterMap Visit.symbol? := by
  induction lines generalizing number pc symbols with
  | nil => exact (List.append_nil _).symm
  | cons text rest ih =>
    cases hl : index.line number pc symbols text with
    | error e => rw [walk_cons_error hl, visits_cons_error hl, List.filterMap_nil, List.append_nil]
    | ok r =>
      rw [walk_cons_ok hl, visits_cons_ok hl, Visit.filterMap_symbol?_cons, ← List.append_assoc,
        ← (line_index_ok hl).1]
      exact ih

theorem distinct_walk_index (hs : symbols.Distinct) :
    (index.walk number pc symbols lines).symbols.Distinct := by
  induction lines generalizing number pc symbols with
  | nil => exact hs
  | cons text rest ih =>
    cases hl : index.line number pc symbols text with
    | error e =>
      rw [walk_cons_error hl]
      exact hs
    | ok r =>
      rw [walk_cons_ok hl]
      exact ih (distinct_line_index hs hl)

theorem pc_le_of_mem_visits_index {v : Visit} {name : Text}
    (hv : v ∈ index.visits number pc symbols lines) (hn : v.label? = some name) :
    v.pc ≤ 0xFFFF := by
  induction lines generalizing number pc symbols with
  | nil => exact absurd hv List.not_mem_nil
  | cons text rest ih =>
    cases hl : index.line number pc symbols text with
    | error e =>
      rw [visits_cons_error hl] at hv
      exact absurd hv List.not_mem_nil
    | ok r =>
      rw [visits_cons_ok hl] at hv
      obtain rfl | hv := List.mem_cons.1 hv
      · exact ((line_index_ok hl).2 name hn).1
      · exact ih hv

end Pass

end Micro6502
