import Micro6502.SymbolTable
import Mathlib.Data.List.Nodup

namespace Micro6502.SymbolTable

variable {t : SymbolTable} {name : Text} {s : Symbol} {a : UInt16}

theorem find?_eq_none_iff : t.find? name = none ↔ ∀ s ∈ t.symbols, s.name ≠ name := by
  simp [find?]

theorem find?_some (h : t.find? name = some s) : s ∈ t.symbols ∧ s.name = name :=
  ⟨List.mem_of_find?_eq_some h, by simpa using List.find?_some h⟩

theorem address?_some (h : t.address? name = some a) :
    ∃ s ∈ t.symbols, s.name = name ∧ s.address = a := by
  obtain ⟨s, hs, rfl⟩ := Option.map_eq_some_iff.1 h
  obtain ⟨hm, hn⟩ := find?_some hs
  exact ⟨s, hm, hn, rfl⟩

theorem address?_none (h : t.address? name = none) : ∀ s ∈ t.symbols, s.name ≠ name :=
  find?_eq_none_iff.1 (Option.map_eq_none_iff.1 h)

theorem address?_eq_none (h : name ∉ t.symbols.map Symbol.name) : t.address? name = none := by
  refine Option.map_eq_none_iff.2 (find?_eq_none_iff.2 fun s hs hn ↦ ?_)
  exact h (List.mem_map.2 ⟨s, hs, hn⟩)

theorem address?_append {more : List Symbol} (h : name ∈ t.symbols.map Symbol.name) :
    address? ⟨t.symbols ++ more⟩ name = t.address? name := by
  obtain ⟨u, hu, hn⟩ := List.mem_map.1 h
  have hfind : t.find? name ≠ none := fun hnone ↦ find?_eq_none_iff.1 hnone u hu hn
  obtain ⟨v, hv⟩ := Option.ne_none_iff_exists'.1 hfind
  have happend : find? ⟨t.symbols ++ more⟩ name = (t.find? name).or (find? ⟨more⟩ name) :=
    List.find?_append
  rw [address?, address?, happend, hv, Option.some_or]

/-- No two symbols have one name. -/
def Distinct (t : SymbolTable) : Prop := (t.symbols.map Symbol.name).Nodup

theorem distinct_empty : empty.Distinct := List.nodup_nil

theorem Distinct.append (ht : t.Distinct) (h : t.find? s.name = none) :
    Distinct ⟨t.symbols ++ [s]⟩ := by
  unfold Distinct
  rw [List.map_append, List.map_singleton, List.nodup_append]
  refine ⟨ht, List.nodup_singleton _, ?_⟩
  intro n hn m hm
  obtain ⟨u, hu, rfl⟩ := List.mem_map.1 hn
  obtain rfl := List.mem_singleton.1 hm
  exact find?_eq_none_iff.1 h u hu

end Micro6502.SymbolTable
