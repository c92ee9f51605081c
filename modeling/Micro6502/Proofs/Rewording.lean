import Mathlib.Data.List.Forall2
import Micro6502.Proofs.Assembler

namespace Micro6502

def LineFailure.cause (f : LineFailure) : Nat × LineError := (f.line, f.reason)

def AssemblyError.cause? (e : AssemblyError) : Option (Nat × LineError) :=
  e.failure?.map LineFailure.cause

/-- A change of symbol tables and of the reasons why lines fail. -/
structure Translation where
  table : SymbolTable → SymbolTable
  reason : LineError → LineError

namespace Translation

protected def id : Translation := ⟨fun s ↦ s, fun e ↦ e⟩

variable (φ : Translation)

def outcome : Except LineError (SymbolTable × Effect) → Except LineError (SymbolTable × Effect)
  | .ok (symbols, effect) => .ok (φ.table symbols, effect)
  | .error reason => .error (φ.reason reason)

def cause (c : Nat × LineError) : Nat × LineError := (c.1, φ.reason c.2)

/-- A line does with translated tables what another does, as far as tables are concerned of which a
property holds that the line keeps. -/
structure Rewords (P : SymbolTable → Prop) (text text' : Text) : Prop where
  line : ∀ (pass : Pass) number pc symbols, P symbols →
    pass.line number pc (φ.table symbols) text' = φ.outcome (pass.line number pc symbols text)
  keeps : ∀ (pass : Pass) number pc symbols symbols' effect, P symbols →
    pass.line number pc symbols text = .ok (symbols', effect) → P symbols'

structure Relates (r r' : Pass.Result) : Prop where
  symbols : r'.symbols = φ.table r.symbols
  writes : r'.writes = r.writes
  counter : r'.counter.mapError LineFailure.cause =
    r.counter.mapError fun f ↦ φ.cause f.cause

variable {φ} {P : SymbolTable → Prop} {lines lines' : List Text} {pass : Pass} {number pc : Nat}
  {s : SymbolTable}

theorem relates_walk (h : List.Forall₂ (φ.Rewords P) lines lines') (hs : P s) :
    φ.Relates (pass.walk number pc s lines) (pass.walk number pc (φ.table s) lines') := by
  induction h generalizing number pc s with
  | nil => exact ⟨rfl, rfl, rfl⟩
  | @cons text text' rest rest' hline _ ih =>
    have hline' := hline.line pass number pc s hs
    cases hl : pass.line number pc s text with
    | error reason =>
      rw [hl] at hline'
      rw [Pass.walk_cons_error hl, Pass.walk_cons_error hline']
      exact ⟨rfl, rfl, rfl⟩
    | ok r =>
      obtain ⟨s', effect⟩ := r
      rw [hl] at hline'
      rw [Pass.walk_cons_ok hl, Pass.walk_cons_ok hline']
      have hrest : φ.Relates (pass.walk (number + 1) (effect.next pc) s' rest)
          (pass.walk (number + 1) (effect.next pc) (φ.table s') rest') :=
        ih (hline.keeps pass number pc s s' effect hs hl)
      exact ⟨hrest.symbols, congrArg (effect.writes pc ++ ·) hrest.writes, hrest.counter⟩

theorem holds_walk (h : List.Forall₂ (φ.Rewords P) lines lines') (hs : P s) :
    P (pass.walk number pc s lines).symbols := by
  induction h generalizing number pc s with
  | nil => exact hs
  | @cons text text' rest rest' hline _ ih =>
    cases hl : pass.line number pc s text with
    | error reason =>
      rw [Pass.walk_cons_error hl]
      exact hs
    | ok r =>
      rw [Pass.walk_cons_ok hl]
      exact ih (hline.keeps pass number pc s r.1 r.2 hs hl)

theorem Relates.counter_cases {r r' : Pass.Result} (h : φ.Relates r r') :
    (∃ pc, r.counter = .ok pc ∧ r'.counter = .ok pc) ∨
      ∃ f f', r.counter = .error f ∧ r'.counter = .error f' ∧ f'.cause = φ.cause f.cause := by
  have hcounter := h.counter
  cases hr : r.counter with
  | ok pc =>
    cases hr' : r'.counter with
    | ok pc' =>
      rw [hr, hr'] at hcounter
      cases hcounter
      exact .inl ⟨pc, rfl, rfl⟩
    | error f' =>
      rw [hr, hr'] at hcounter
      cases hcounter
  | error f =>
    cases hr' : r'.counter with
    | ok pc' =>
      rw [hr, hr'] at hcounter
      cases hcounter
    | error f' =>
      rw [hr, hr'] at hcounter
      exact .inr ⟨f, f', rfl, rfl, Except.error.inj hcounter⟩

end Translation

namespace Assembler

/-- The outcome of assembling a source is that of another, up to a translation: length or cause of
failure, assembler, memory and the bytes that the commit pass yields, in their order. -/
structure AssemblesAs (a : Assembler) (φ : Translation) (source source' : Text) : Prop where
  result : ∀ m, (a.assemble source' m).result.mapError AssemblyError.cause? =
    (a.assemble source m).result.mapError fun e ↦ e.cause?.map φ.cause
  assembler : ∀ m, (a.assemble source' m).assembler =
    { (a.assemble source m).assembler with
      symbols := φ.table (a.assemble source m).assembler.symbols }
  memory : ∀ m, (a.assemble source' m).memory = (a.assemble source m).memory
  writes : ((a.runPass .index source').2.2.runPass .commit source').2.1 =
    ((a.runPass .index source).2.2.runPass .commit source).2.1

variable {a : Assembler} {φ : Translation} {P : SymbolTable → Prop} {source source' : Text}

theorem assemblesAs_of_rewords (hempty : φ.table .empty = .empty) (hP : P .empty)
    (h : List.Forall₂ (φ.Rewords P) source.lines source'.lines) :
    a.AssemblesAs φ source source' := by
  have hindex : φ.Relates (a.indexWalk source) (a.indexWalk source') := by
    have hwalk : φ.Relates (a.indexWalk source)
        (Pass.index.walk 1 a.origin.toNat (φ.table .empty) source'.lines) :=
      Translation.relates_walk h hP
    rwa [hempty] at hwalk
  have hcommit : φ.Relates (a.commitWalk source) (a.commitWalk source') := by
    unfold commitWalk
    rw [hindex.symbols]
    exact Translation.relates_walk h (Translation.holds_walk h hP)
  constructor
  case result =>
    intro m
    rw [result_assemble, result_assemble]
    obtain ⟨pc, hi, hi'⟩ | ⟨f, f', hi, hi', hf⟩ := hindex.counter_cases
    · obtain ⟨pc', hc, hc'⟩ | ⟨f, f', hc, hc', hf⟩ := hcommit.counter_cases
      · rw [hi, hi', hc, hc', hcommit.writes]
        dsimp only
        split
        · rfl
        · rfl
      · rw [hi, hi', hc, hc']
        exact congrArg (Except.error ∘ some) hf
    · rw [hi, hi']
      exact congrArg (Except.error ∘ some) hf
  case assembler =>
    intro m
    rw [assembler_assemble, assembler_assemble]
    obtain ⟨pc, hi, hi'⟩ | ⟨f, f', hi, hi', -⟩ := hindex.counter_cases
    · obtain ⟨pc', hc, hc'⟩ | ⟨f, f', hc, hc', -⟩ := hcommit.counter_cases
      · rw [hi, hi', hc, hc', hindex.symbols, hcommit.writes]
      · rw [hi, hi', hc, hc', indexed, indexed, hindex.symbols]
    · rw [hi, hi', indexed, indexed, hindex.symbols]
  case memory =>
    intro m
    rw [memory_assemble, memory_assemble]
    obtain ⟨pc, hi, hi'⟩ | ⟨f, f', hi, hi', -⟩ := hindex.counter_cases
    · rw [hi, hi', hcommit.writes]
    · rw [hi, hi']
  case writes => exact hcommit.writes

end Assembler

end Micro6502
