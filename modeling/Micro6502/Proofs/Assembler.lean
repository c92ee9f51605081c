import Micro6502.Assembly.Assembler
import Micro6502.Proofs.Visit

namespace Micro6502.Assembler

variable (a : Assembler) (source : Text) (m : Memory)

def indexWalk : Pass.Result := Pass.index.walk 1 a.origin.toNat .empty source.lines

def commitWalk : Pass.Result :=
  Pass.commit.walk 1 a.origin.toNat (a.indexWalk source).symbols source.lines

def indexed : Assembler := { a with symbols := (a.indexWalk source).symbols }

theorem symbols_commitWalk : (a.commitWalk source).symbols = (a.indexWalk source).symbols :=
  Pass.symbols_walk_commit

theorem runPass_index : a.runPass .index source =
    ((a.indexWalk source).counter.map fun _ ↦ (a.indexWalk source).writes.length,
      (a.indexWalk source).writes, a.indexed source) := rfl

theorem runPass_commit : (a.indexed source).runPass .commit source =
    ((a.commitWalk source).counter.map fun _ ↦ (a.commitWalk source).writes.length,
      (a.commitWalk source).writes, (a.indexed source).afterPass .commit (a.commitWalk source)) :=
  rfl

/-- The four ways in which an assembly ends. -/
theorem outcome_assemble :
    ((a.assemble source m).result, (a.assemble source m).memory, (a.assemble source m).assembler) =
      match (a.indexWalk source).counter, (a.commitWalk source).counter with
      | .error f, _ => (.error (.line f), m, a.indexed source)
      | .ok _, .error f =>
        (.error (.line f), m.writeAll (a.commitWalk source).writes, a.indexed source)
      | .ok _, .ok pc =>
        (if (a.commitWalk source).writes = [] then .error .noCode
          else .ok (a.commitWalk source).writes.length,
          m.writeAll (a.commitWalk source).writes,
          ⟨a.origin, (a.indexWalk source).symbols, (a.commitWalk source).writes.length,
            UInt16.ofNat pc⟩) := by
  unfold assemble
  rw [runPass_index]
  cases (a.indexWalk source).counter with
  | error f => rfl
  | ok pc =>
    simp only [Except.map, runPass_commit, afterPass, symbols_commitWalk]
    cases (a.commitWalk source).counter with
    | error f => rfl
    | ok pc' =>
      cases (a.commitWalk source).writes with
      | nil => rfl
      | cons w ws => rfl

theorem result_assemble : (a.assemble source m).result =
    match (a.indexWalk source).counter, (a.commitWalk source).counter with
    | .error f, _ | .ok _, .error f => .error (.line f)
    | .ok _, .ok _ =>
      if (a.commitWalk source).writes = [] then .error .noCode
      else .ok (a.commitWalk source).writes.length := by
  refine (congrArg Prod.fst (outcome_assemble a source m)).trans ?_
  cases (a.indexWalk source).counter with
  | error f => rfl
  | ok pc => cases (a.commitWalk source).counter <;> rfl

theorem memory_assemble : (a.assemble source m).memory =
    match (a.indexWalk source).counter with
    | .error _ => m
    | .ok _ => m.writeAll (a.commitWalk source).writes := by
  refine (congrArg (·.2.1) (outcome_assemble a source m)).trans ?_
  cases (a.indexWalk source).counter with
  | error f => rfl
  | ok pc => cases (a.commitWalk source).counter <;> rfl

theorem assembler_assemble : (a.assemble source m).assembler =
    match (a.indexWalk source).counter, (a.commitWalk source).counter with
    | .error _, _ | .ok _, .error _ => a.indexed source
    | .ok _, .ok pc =>
      ⟨a.origin, (a.indexWalk source).symbols, (a.commitWalk source).writes.length,
        UInt16.ofNat pc⟩ := by
  refine (congrArg (·.2.2) (outcome_assemble a source m)).trans ?_
  cases (a.indexWalk source).counter with
  | error f => rfl
  | ok pc => cases (a.commitWalk source).counter <;> rfl

theorem origin_assemble : (a.assemble source m).assembler.origin = a.origin := by
  rw [assembler_assemble]
  split
  · rfl
  · rfl
  · rfl

variable {a source m} {n : Nat} {f : LineFailure}

theorem assemble_ok_iff : (a.assemble source m).result = .ok n ↔
    ∃ pc pc', (a.indexWalk source).counter = .ok pc ∧ (a.commitWalk source).counter = .ok pc' ∧
      (a.commitWalk source).writes ≠ [] ∧ (a.commitWalk source).writes.length = n := by
  rw [result_assemble]
  cases (a.indexWalk source).counter with
  | error f => simp
  | ok pc =>
    cases (a.commitWalk source).counter with
    | error f => simp
    | ok pc' =>
      by_cases hw : (a.commitWalk source).writes = []
      · simp [hw]
      · simp [hw]

theorem assemble_error_iff : (a.assemble source m).result = .error (.line f) ↔
    (a.indexWalk source).counter = .error f ∨
      (∃ pc, (a.indexWalk source).counter = .ok pc) ∧ (a.commitWalk source).counter = .error f := by
  rw [result_assemble]
  cases (a.indexWalk source).counter with
  | error f' => simp
  | ok pc =>
    cases (a.commitWalk source).counter with
    | error f' => simp
    | ok pc' =>
      by_cases hw : (a.commitWalk source).writes = []
      · simp [hw]
      · simp [hw]

theorem assemble_ok {pc pc' : Nat} (hi : (a.indexWalk source).counter = .ok pc)
    (hc : (a.commitWalk source).counter = .ok pc') :
    (a.assemble source m).memory = m.writeAll (a.commitWalk source).writes ∧
      (a.assemble source m).assembler = ⟨a.origin, (a.indexWalk source).symbols,
        (a.commitWalk source).writes.length, UInt16.ofNat pc'⟩ := by
  rw [memory_assemble, assembler_assemble, hi, hc]
  exact ⟨rfl, rfl⟩

end Micro6502.Assembler
