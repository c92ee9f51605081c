import Micro6502.Proofs.Failure
import Micro6502.Proofs.Layout

namespace Micro6502.Assembler

variable (a : Assembler) (source : Text)

/-- A commit pass that fails names the line that it fails on. It has read the lines before that one,
put their bytes down where the layout has them, and changed nothing in the assembler. The index pass
changes the labels at most, whether it fails or not. -/
structure LineAtomic : Prop where
  commit : ∀ f, (a.runPass .commit source).1 = .error f →
    ∃ (start : Text) (rest : List Text) (visits : List Visit) (pc : Nat), start <+: source ∧
      source.lines = start.lines ++ f.text :: rest ∧ f.line = start.lines.length + 1 ∧
      Layout a.origin start a.symbols visits pc ∧ Pass.Refuses a.symbols pc f.text f.reason ∧
      (a.runPass .commit source).2.1 = visits.flatMap Visit.writes ∧
      (a.runPass .commit source).2.2 = a
  index : ∃ symbols, (a.runPass .index source).2.2 = { a with symbols }

variable {a source}

theorem afterPass_of_error {pass : Pass} {r : Pass.Result} {f : LineFailure}
    (h : r.counter = .error f) : a.afterPass pass r = { a with symbols := r.symbols } := by
  unfold afterPass
  rw [h]
  cases pass <;> rfl

theorem line_atomic : a.LineAtomic source := by
  constructor
  case commit =>
    intro f hf
    have hwalk : (a.walk .commit source).counter = .error f := Except.map_eq_error_iff.1 hf
    obtain ⟨before, rest, pc, hlines, hnumber, hbefore, hline⟩ := Pass.exists_of_walk_error hwalk
    obtain ⟨start, behind, hsource, rfl, -⟩ := Text.exists_append_lines hlines
    -- The source up to the line that fails is a source by itself, whose commit pass does not fail.
    have hstop : a.walk .commit source = { a.walk .commit start with counter := .error f } := by
      rw [walk, hlines, Pass.walk_append_error hbefore (hnumber ▸ hline), ← hnumber]
      rfl
    rw [Pass.symbols_walk_commit] at hline
    refine ⟨start, rest, _, pc, ⟨behind, hsource.symm⟩, hlines, hnumber.trans (Nat.add_comm _ _),
      Pass.layout_commit hbefore, Pass.line_commit_eq_error_iff.1 hline, ?_, ?_⟩
    · have hwrites : (a.runPass .commit source).2.1 = (a.walk .commit source).writes := rfl
      rw [hwrites, hstop]
      exact Pass.writes_walk
    · have hafter : (a.runPass .commit source).2.2 =
          a.afterPass .commit (a.walk .commit source) := rfl
      rw [hafter, afterPass_of_error hwalk, walk, Pass.symbols_walk_commit]
      rfl
  case index => exact ⟨_, rfl⟩

example : standard.runPass .commit "NOP\n* = $FFFF\nLDX #1".toList =
    (.error ⟨3, "LDX #1".toList, .addressOverflow⟩, [(0x0600, 0xEA)], standard) := by
  decide +kernel

end Micro6502.Assembler
