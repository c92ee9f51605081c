import Micro6502.Proofs.KnownLabels
import Micro6502.Proofs.Layout

namespace Micro6502.Assembler

def Compiles (a : Assembler) (lines : List Text) : Prop :=
  ∃ pc, (Pass.commit.walk 1 a.origin.toNat a.symbols lines).counter = .ok pc

/-- The line that an assembly reports is the first one that fails. Only a label that is defined
twice may be reported ahead of it. -/
structure ReportsFirst (a : Assembler) (source : Text) : Prop where
  first : Line.Unique source.lines → ∀ m f, (a.assemble source m).result = .error (.line f) →
    (a.assemble source m).assembler.Compiles (source.lines.take (f.line - 1))
  ahead : ∀ m f, (a.assemble source m).result = .error (.line f) →
    ¬ (a.assemble source m).assembler.Compiles (source.lines.take (f.line - 1)) →
    ∃ name first, f.reason = .labelRedefined name first

variable {a : Assembler} {source text name : Text} {m : Memory} {f : LineFailure} {n : Nat}
  {before after : List Text}

theorem compiles_assemble_iff {lines : List Text} :
    (a.assemble source m).assembler.Compiles lines ↔
      ∃ pc, (Pass.commit.walk 1 a.origin.toNat (a.indexWalk source).symbols lines).counter =
        .ok pc := by
  have hassembler : (a.assemble source m).assembler.origin = a.origin ∧
      (a.assemble source m).assembler.symbols = (a.indexWalk source).symbols := by
    rw [assembler_assemble]
    split
    · exact ⟨rfl, rfl⟩
    · exact ⟨rfl, rfl⟩
    · exact ⟨rfl, rfl⟩
  rw [Compiles, hassembler.1, hassembler.2]

theorem take_lines (hlines : source.lines = before ++ text :: after)
    (hnumber : n = 1 + before.length) : source.lines.take (n - 1) = before := by
  rw [hlines, hnumber, Nat.add_sub_cancel_left]
  exact List.take_left

theorem not_unique_of_find? {pc : Nat} {s : Symbol}
    (hlines : source.lines = before ++ text :: after)
    (hbefore : (Pass.index.walk 1 a.origin.toNat .empty before).counter = .ok pc)
    (hs : (Pass.index.walk 1 a.origin.toNat .empty before).symbols.find? name = some s)
    (hlabel : Line.label? text = some name) : ¬ Line.Unique source.lines := by
  intro hu
  have hdefines {t : Text} (ht : t ∈ source.lines) (hl : Line.label? t = some name) :
      Line.Defines t name :=
    ((Line.label?_eq_some_iff (Text.newline_not_mem_of_mem_lines ht)).1 hl).2
  -- What the table lists before this line is what the lines before it define.
  obtain ⟨hmem, rfl⟩ := SymbolTable.find?_some hs
  have hname := List.mem_map_of_mem (f := Symbol.name) hmem
  rw [Pass.map_name_walk_index hbefore] at hname
  obtain ⟨u, hub, hul⟩ := List.mem_filterMap.1 hname
  have hbefore' : u ∈ source.lines := hlines ▸ List.mem_append_left _ hub
  have htext : text ∈ source.lines := hlines ▸ List.mem_append_right _ List.mem_cons_self
  rw [Line.Unique, hlines, List.pairwise_append] at hu
  exact hu.2.2 u hub text List.mem_cons_self _ (hdefines hbefore' hul) (hdefines htext hlabel)

theorem indexWalk_error (h : (a.indexWalk source).counter = .error f) :
    ∃ before after pc, source.lines = before ++ f.text :: after ∧ f.line = 1 + before.length ∧
      (Pass.index.walk 1 a.origin.toNat .empty before).counter = .ok pc ∧
      (a.indexWalk source).symbols = (Pass.index.walk 1 a.origin.toNat .empty before).symbols ∧
      ((Line.label? f.text).isSome ∧ pc = 0x10000 ∨
        ¬ Line.Unique source.lines ∧ ∃ name first, f.reason = .labelRedefined name first) := by
  obtain ⟨before, after, pc, hlines, hnumber, hbefore, hline⟩ := Pass.exists_of_walk_error h
  refine ⟨before, after, pc, hlines, hnumber, hbefore, ?_, ?_⟩
  · rw [indexWalk, hlines, Pass.walk_append_error hbefore (hnumber ▸ hline)]
  · obtain ⟨name, hlabel, ⟨hpc, -⟩ | ⟨-, s, hs, hr⟩⟩ := Pass.line_index_eq_error_iff.1 hline
    · have hle : pc ≤ 0x10000 := Pass.counter_walk_le (Nat.le_of_lt a.origin.toNat_lt) hbefore
      exact .inl ⟨Option.isSome_of_eq_some hlabel, by omega⟩
    · exact .inr ⟨not_unique_of_find? hlines hbefore hs hlabel, name, s.line, hr⟩

theorem indexWalk_of_label_behind
    (hlines : source.lines = before ++ text :: after) (hlabel : (Line.label? text).isSome)
    (hbefore : (Pass.index.walk 1 a.origin.toNat .empty before).counter = .ok 0x10000) :
    a.indexWalk source = { Pass.index.walk 1 a.origin.toNat .empty before with
      counter := .error ⟨1 + before.length, text, .addressOverflow⟩ } := by
  obtain ⟨name, hname⟩ := Option.isSome_iff_exists.1 hlabel
  rw [indexWalk, hlines]
  refine Pass.walk_append_error hbefore (Pass.line_index_eq_error_iff.2 ⟨name, hname, ?_⟩)
  exact .inl ⟨by decide, rfl⟩

theorem compiles_or_redefined (hf : (a.assemble source m).result = .error (.line f))
    (hbehind : ∀ before after, source.lines = before ++ f.text :: after →
      (Line.label? f.text).isSome →
      (Pass.index.walk 1 a.origin.toNat .empty before).counter = .ok 0x10000 →
      ∃ pc, (Pass.commit.walk 1 a.origin.toNat
        (Pass.index.walk 1 a.origin.toNat .empty before).symbols before).counter = .ok pc) :
    (a.assemble source m).assembler.Compiles (source.lines.take (f.line - 1)) ∨
      ¬ Line.Unique source.lines ∧ ∃ name first, f.reason = .labelRedefined name first := by
  rw [compiles_assemble_iff]
  obtain hi | ⟨-, hc⟩ := assemble_error_iff.1 hf
  · obtain ⟨before, after, pc, hlines, hnumber, hbefore, hsymbols, hcause⟩ := indexWalk_error hi
    rw [take_lines hlines hnumber, hsymbols]
    obtain ⟨hlabel, rfl⟩ | hredefined := hcause
    · exact .inl (hbehind before after hlines hlabel hbefore)
    · exact .inr hredefined
  · obtain ⟨before, after, pc, hlines, hnumber, hbefore, -⟩ := Pass.exists_of_walk_error hc
    rw [take_lines hlines hnumber]
    exact .inl ⟨pc, hbefore⟩

/-- The first failing line is the one that is reported exactly if no line fails ahead of a label
just behind the end of memory. -/
theorem reportsFirst_iff : a.ReportsFirst source ↔
    ∀ before text after, source.lines = before ++ text :: after → (Line.label? text).isSome →
      let r := Pass.index.walk 1 a.origin.toNat .empty before
      r.counter = .ok 0x10000 →
        ∃ pc, (Pass.commit.walk 1 a.origin.toNat r.symbols before).counter = .ok pc := by
  constructor
  · intro h before text after hlines hlabel r hr
    have hwalk : a.indexWalk source = { r with counter := .error _ } :=
      indexWalk_of_label_behind hlines hlabel hr
    have hresult : (a.assemble source .blank).result =
        .error (.line ⟨1 + before.length, text, .addressOverflow⟩) :=
      assemble_error_iff.2 (.inl (by rw [hwalk]))
    -- A label behind the end of memory is not one that is defined twice, so `ahead` excludes it.
    by_contra hfails
    have hcompiles : ¬ (a.assemble source .blank).assembler.Compiles
        (source.lines.take (1 + before.length - 1)) := by
      rw [compiles_assemble_iff, hwalk, take_lines hlines rfl]
      exact hfails
    obtain ⟨name, first, hreason⟩ := h.ahead .blank _ hresult hcompiles
    cases hreason
  · intro h
    constructor
    case first =>
      intro hu m f hf
      have hcases := compiles_or_redefined hf fun before after ↦ h before f.text after
      exact hcases.resolve_right fun hredefined ↦ hredefined.1 hu
    case ahead =>
      intro m f hf hfails
      have hcases := compiles_or_redefined hf fun before after ↦ h before f.text after
      exact (hcases.resolve_left hfails).2

def overflowing : Text := "FOO\n* = $FFFF\nNOP\nend:".toList

theorem unique_overflowing : Line.Unique overflowing.lines :=
  (Line.unique_iff fun _ ↦ Text.newline_not_mem_of_mem_lines).2 (by decide +kernel)

/-- The label in the last line is reported, although the first line fails and no label is defined
twice. -/
theorem not_reportsFirst_overflowing :
    (standard.assemble overflowing .blank).result =
        .error (.line ⟨4, "end:".toList, .addressOverflow⟩) ∧
      Line.Unique overflowing.lines ∧ ¬ standard.ReportsFirst overflowing := by
  have hresult : (standard.assemble overflowing .blank).result =
      .error (.line ⟨4, "end:".toList, .addressOverflow⟩) := by decide +kernel
  refine ⟨hresult, unique_overflowing, fun h ↦ ?_⟩
  obtain ⟨pc, hpc⟩ := compiles_assemble_iff.1 (h.first unique_overflowing .blank _ hresult)
  have hfails : (Pass.commit.walk 1 standard.origin.toNat (standard.indexWalk overflowing).symbols
      (overflowing.lines.take 3)).counter =
        .error ⟨1, "FOO".toList, .unknownInstruction "FOO".toList⟩ := by decide +kernel
  exact absurd (hfails.symm.trans hpc) nofun

end Micro6502.Assembler
