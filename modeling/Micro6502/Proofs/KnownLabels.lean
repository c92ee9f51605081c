import Micro6502.Proofs.Assembler
import Micro6502.Proofs.Failure

namespace Micro6502

theorem Visit.map_name_symbol? (v : Visit) : v.symbol?.map Symbol.name = Line.label? v.text := by
  have hlabel : v.label? = Line.label? v.text := rfl
  rw [Visit.symbol?, Option.map_map, hlabel]
  exact Option.map_id'

theorem Visit.map_name_filterMap_symbol? (vs : List Visit) :
    (vs.filterMap Visit.symbol?).map Symbol.name = (vs.map Visit.text).filterMap Line.label? := by
  rw [List.map_filterMap, List.filterMap_map]
  exact List.filterMap_congr fun v _ ↦ v.map_name_symbol?

theorem Pass.map_name_walk_index {number pc end_ : Nat} {s : SymbolTable} {lines : List Text}
    (h : (index.walk number pc s lines).counter = .ok end_) :
    (index.walk number pc s lines).symbols.symbols.map Symbol.name =
      s.symbols.map Symbol.name ++ lines.filterMap Line.label? := by
  rw [symbols_walk_index, List.map_append, Visit.map_name_filterMap_symbol?, map_text_visits h]

namespace Assembler

variable (a : Assembler) (source : Text)

/-- The index pass finds every label of a source: one that is defined twice is refused, and none
that is defined is missed when the bytes are put down. -/
structure KnowsLabels : Prop where
  known : ∀ n, (a.runPass .index source).1 = .ok n → ∀ text ∈ source.lines, ∀ name,
    Line.Defines text name → ∃ s ∈ (a.runPass .index source).2.2.symbols.symbols, s.name = name
  refused : ¬ Line.Unique source.lines → ∃ f name first,
    (a.runPass .index source).1 = .error f ∧ f.reason = .labelRedefined name first
  found : ∀ n f name, (a.runPass .index source).1 = .ok n →
    ((a.runPass .index source).2.2.runPass .commit source).1 = .error f →
    f.reason = .unresolvedLabel name → ∀ text ∈ source.lines, ¬ Line.Defines text name

variable {a source} {end_ : Nat} {name : Text}

theorem mem_symbols_indexWalk_iff (h : (a.indexWalk source).counter = .ok end_) :
    (∃ s ∈ (a.indexWalk source).symbols.symbols, s.name = name) ↔
      ∃ text ∈ source.lines, (Line.parse? text).isSome ∧ Line.Defines text name := by
  have hnames : (a.indexWalk source).symbols.symbols.map Symbol.name =
      source.lines.filterMap Line.label? := Pass.map_name_walk_index h
  rw [← List.mem_map, hnames, List.mem_filterMap]
  refine exists_congr fun text ↦ and_congr_right fun ht ↦ ?_
  exact Line.label?_eq_some_iff (Text.newline_not_mem_of_mem_lines ht)

theorem unique_of_indexWalk (h : (a.indexWalk source).counter = .ok end_)
    (hread : ∀ text ∈ source.lines, ∀ name, Line.Defines text name → (Line.parse? text).isSome) :
    Line.Unique source.lines := by
  have hdistinct : (a.indexWalk source).symbols.Distinct :=
    Pass.distinct_walk_index SymbolTable.distinct_empty
  have hnames : (a.indexWalk source).symbols.symbols.map Symbol.name =
      source.lines.filterMap Line.label? := Pass.map_name_walk_index h
  have hlabel : ∀ text ∈ source.lines, Line.label? text = (Line.splitLabel (Line.code text)).1 := by
    intro text ht
    have hfeed := Text.newline_not_mem_of_mem_lines ht
    ext name
    rw [Line.label?_eq_some_iff hfeed, Line.splitLabel_eq_some_iff hfeed]
    exact and_iff_right_of_imp (hread text ht name)
  rw [Line.unique_iff fun _ ↦ Text.newline_not_mem_of_mem_lines, ← List.filterMap_congr hlabel]
  rwa [SymbolTable.Distinct, hnames] at hdistinct

theorem not_mem_of_unresolved {f : LineFailure} (h : (a.commitWalk source).counter = .error f)
    (hf : f.reason = .unresolvedLabel name) :
    ¬ ∃ s ∈ (a.indexWalk source).symbols.symbols, s.name = name := by
  rintro ⟨s, hs, hn⟩
  exact SymbolTable.address?_none (Pass.address?_of_walk_commit h hf) s hs hn

theorem knowsLabels_iff_of_error {f : LineFailure} (hi : (a.indexWalk source).counter = .error f) :
    a.KnowsLabels source ↔
      Line.Unique source.lines ∨ ∃ name first, f.reason = .labelRedefined name first := by
  have hrun : (a.runPass .index source).1 = .error f := by
    rw [runPass_index, hi]
    rfl
  constructor
  · intro h
    refine or_iff_not_imp_left.2 fun hu ↦ ?_
    obtain ⟨f', name, first, hf', hr⟩ := h.refused hu
    cases hrun.symm.trans hf'
    exact ⟨name, first, hr⟩
  · intro h
    constructor
    case known =>
      intro n hn
      cases hrun.symm.trans hn
    case refused =>
      intro hu
      obtain ⟨name, first, hr⟩ := h.resolve_left hu
      exact ⟨f, name, first, hrun, hr⟩
    case found =>
      intro n f' name hn
      cases hrun.symm.trans hn

theorem knowsLabels_iff_of_ok (hi : (a.indexWalk source).counter = .ok end_) :
    a.KnowsLabels source ↔
      ∀ text ∈ source.lines, ∀ name, Line.Defines text name → (Line.parse? text).isSome := by
  have hrun : (a.runPass .index source).1 = .ok (a.indexWalk source).writes.length := by
    rw [runPass_index, hi]
    rfl
  have hmem (name : Text) : (∃ s ∈ (a.indexWalk source).symbols.symbols, s.name = name) ↔ _ :=
    mem_symbols_indexWalk_iff hi
  constructor
  · intro h text ht name hd
    -- The pass has refused no label, so the line that the table knows the name from is this one.
    have hu : Line.Unique source.lines := by
      by_contra hu
      obtain ⟨f, name, first, hf, -⟩ := h.refused hu
      cases hrun.symm.trans hf
    obtain ⟨u, hum, hread, hun⟩ := (hmem name).1 (h.known _ hrun text ht name hd)
    exact hu.eq_of_defines ht hum hd hun ▸ hread
  · intro hread
    have hknown {text name : Text} (ht : text ∈ source.lines) (hd : Line.Defines text name) :
        ∃ s ∈ (a.indexWalk source).symbols.symbols, s.name = name :=
      (hmem name).2 ⟨text, ht, hread text ht name hd, hd⟩
    constructor
    case known => exact fun n hn text ht name hd ↦ hknown ht hd
    case refused => exact fun hu ↦ absurd (unique_of_indexWalk hi hread) hu
    case found =>
      intro n f name hn hf hr text ht hd
      rw [runPass_index, runPass_commit] at hf
      have hc : (a.commitWalk source).counter = .error f := Except.map_eq_error_iff.1 hf
      exact not_mem_of_unresolved hc hr (hknown ht hd)

/-- If the index pass reaches the end, it knows the labels exactly if every line that begins with
one can be read. If it fails, no label may be defined twice, or it fails for that reason. -/
theorem knowsLabels_iff : a.KnowsLabels source ↔
    match (a.runPass .index source).1 with
    | .ok _ => ∀ text ∈ source.lines, ∀ name, Line.Defines text name → (Line.parse? text).isSome
    | .error f =>
      Line.Unique source.lines ∨ ∃ name first, f.reason = .labelRedefined name first := by
  rw [runPass_index]
  cases hi : (a.indexWalk source).counter with
  | error f => exact knowsLabels_iff_of_error hi
  | ok pc => exact knowsLabels_iff_of_ok hi

def unreadable : Text := "here: LDA#$01".toList

theorem not_knowsLabels_unreadable : ¬ standard.KnowsLabels unreadable := by
  intro h
  have hline : unreadable ∈ Text.lines unreadable := by decide +kernel
  have hword : "here".toList.all Text.isWordChar = true := by decide +kernel
  have hdefines : Line.Defines unreadable "here".toList :=
    ⟨nofun, List.all_eq_true.1 hword, " LDA#$01".toList, by decide +kernel⟩
  obtain ⟨s, hs, -⟩ := h.known 0 (by decide +kernel) unreadable hline _ hdefines
  have hempty : (standard.runPass .index unreadable).2.2.symbols.symbols = [] := by decide +kernel
  rw [hempty] at hs
  cases hs

end Assembler

end Micro6502
