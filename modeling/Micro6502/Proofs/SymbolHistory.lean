import Mathlib.Data.List.DropRight
import Micro6502.Proofs.SymbolTable

namespace Micro6502.SymbolTable

inductive Action where
  | insert (s : Symbol)
  | clear
  deriving DecidableEq, Repr

def act (t : SymbolTable) : Action → SymbolTable
  | .insert s => (t.insert s).toOption.getD t
  | .clear => empty

def after (t : SymbolTable) (as : List Action) : SymbolTable := as.foldl act t

def Action.symbol? : Action → Option Symbol
  | insert s => some s
  | clear => none

def offered (as : List Action) : List Symbol :=
  (as.rtakeWhile (· ≠ .clear)).filterMap Action.symbol?

/-- The first symbol of each name, in the order in which the names come up. -/
def firsts (l : List Symbol) : List Symbol := l.eraseDupsBy fun u s ↦ u.name = s.name

/-- Whether a symbol can be entered, or else the symbol that has its name. -/
def answer (t : SymbolTable) (s : Symbol) : Except Symbol Unit := (t.insert s).map fun _ ↦ ()

variable {t t' : SymbolTable} {s u : Symbol} {name : Text} {l : List Symbol} {a : UInt16}

theorem find?_eq_some_iff (ht : t.Distinct) :
    t.find? name = some s ↔ s ∈ t.symbols ∧ s.name = name := by
  refine ⟨find?_some, ?_⟩
  rintro ⟨hs, rfl⟩
  cases h : t.find? s.name with
  | none => exact absurd rfl (find?_eq_none_iff.1 h s hs)
  | some u =>
    obtain ⟨hu, hn⟩ := find?_some h
    rw [List.inj_on_of_nodup_map ht hu hs hn]

theorem address?_eq_some_iff (ht : t.Distinct) :
    t.address? name = some a ↔ ∃ s ∈ t.symbols, s.name = name ∧ s.address = a := by
  simp only [address?, Option.map_eq_some_iff, find?_eq_some_iff ht, and_assoc]

theorem address?_eq_none_iff : t.address? name = none ↔ ∀ s ∈ t.symbols, s.name ≠ name :=
  Option.map_eq_none_iff.trans find?_eq_none_iff

theorem insert_of_none (h : t.find? s.name = none) : t.insert s = .ok ⟨t.symbols ++ [s]⟩ := by
  simp only [insert, h]

theorem insert_of_some (h : t.find? s.name = some u) : t.insert s = .error u := by
  simp only [insert, h]

theorem insert_eq_ok_iff : t.insert s = .ok t' ↔
    (∀ u ∈ t.symbols, u.name ≠ s.name) ∧ t' = ⟨t.symbols ++ [s]⟩ := by
  rw [← find?_eq_none_iff]
  cases h : t.find? s.name with
  | none => simp [insert_of_none h, eq_comm]
  | some u => simp [insert_of_some h]

theorem insert_eq_error_iff (ht : t.Distinct) :
    t.insert s = .error u ↔ u ∈ t.symbols ∧ u.name = s.name := by
  rw [← find?_eq_some_iff ht]
  cases h : t.find? s.name with
  | none => simp [insert_of_none h]
  | some v => simp [insert_of_some h]

theorem act_insert_of_none (h : t.find? s.name = none) :
    t.act (.insert s) = ⟨t.symbols ++ [s]⟩ := by
  rw [act, insert_of_none h]
  rfl

theorem act_insert_of_some (h : t.find? s.name = some u) : t.act (.insert s) = t := by
  rw [act, insert_of_some h]
  rfl

theorem firsts_cons (s : Symbol) (l : List Symbol) :
    firsts (s :: l) = s :: firsts (l.filter (·.name ≠ s.name)) := by
  simp [firsts, List.eraseDupsBy_cons]

theorem firsts_concat (l : List Symbol) (s : Symbol) : firsts (l ++ [s]) =
    if ∃ u ∈ l, u.name = s.name then firsts l else firsts l ++ [s] := by
  induction hn : l.length using Nat.strong_induction_on generalizing l with
  | _ n ih =>
    cases l with
    | nil => rfl
    | cons u l =>
      rw [List.cons_append, firsts_cons, firsts_cons, List.filter_append]
      by_cases hs : s.name = u.name
      · simp [hs]
      · have hlt : (l.filter (·.name ≠ u.name)).length < n := by
          have hle := List.length_filter_le (·.name ≠ u.name) l
          simp only [List.length_cons] at hn
          omega
        have hmem : (∃ v ∈ l.filter (·.name ≠ u.name), v.name = s.name) ↔
            ∃ v ∈ u :: l, v.name = s.name := by
          simp only [List.mem_filter, List.mem_cons, decide_eq_true_eq]
          constructor
          · rintro ⟨v, ⟨hv, -⟩, hvs⟩
            exact ⟨v, .inr hv, hvs⟩
          · rintro ⟨v, rfl | hv, hvs⟩
            · exact absurd hvs.symm hs
            · exact ⟨v, ⟨hv, fun h ↦ hs (hvs.symm.trans h)⟩, hvs⟩
        have hkept : [s].filter (·.name ≠ u.name) = [s] := by simp [hs]
        rw [hkept, ih _ hlt _ rfl]
        simp only [hmem]
        split
        · rfl
        · rfl

theorem map_name_firsts (l : List Symbol) :
    (firsts l).map Symbol.name = (l.map Symbol.name).eraseDups := by
  induction l using List.reverseRecOn with
  | nil => rfl
  | append_singleton l s ih =>
    rw [firsts_concat, List.map_append, List.eraseDups_append, ← ih]
    by_cases h : ∃ u ∈ l, u.name = s.name
    · simp [List.removeAll, h]
    · simp [List.removeAll, h, List.eraseDups_cons]

theorem find?_firsts (l : List Symbol) (name : Text) :
    (firsts l).find? (·.name = name) = l.find? (·.name = name) := by
  induction l using List.reverseRecOn with
  | nil => rfl
  | append_singleton l s ih =>
    rw [firsts_concat, List.find?_append]
    by_cases h : ∃ u ∈ l, u.name = s.name
    · rw [if_pos h, ih]
      -- A later symbol is only looked for if no earlier one has the name.
      by_cases hs : s.name = name
      · obtain ⟨u, hu, hus⟩ := h
        have hfound : (l.find? (·.name = name)).isSome = true := by
          rw [List.find?_isSome]
          exact ⟨u, hu, by simp [hus, hs]⟩
        rw [Option.or_of_isSome hfound]
      · simp [hs]
    · rw [if_neg h, List.find?_append, ih]

theorem offered_insert (as : List Action) (s : Symbol) :
    offered (as ++ [.insert s]) = offered as ++ [s] := by
  simp [offered, List.rtakeWhile_concat_pos, Action.symbol?]

theorem offered_clear (as : List Action) : offered (as ++ [.clear]) = [] := by
  simp [offered, List.rtakeWhile_concat_neg]

theorem symbols_act_insert (h : t.symbols = firsts l) (s : Symbol) :
    (t.act (.insert s)).symbols = firsts (l ++ [s]) := by
  rw [firsts_concat]
  cases hs : t.find? s.name with
  | none =>
    have hnew : ¬ ∃ u ∈ l, u.name = s.name := by
      rw [find?, h, find?_firsts, List.find?_eq_none] at hs
      simpa using hs
    rw [act_insert_of_none hs, if_neg hnew, h]
  | some u =>
    have htaken : ∃ u ∈ l, u.name = s.name := by
      rw [find?, h, find?_firsts] at hs
      exact ⟨u, List.mem_of_find?_eq_some hs, by simpa using List.find?_some hs⟩
    rw [act_insert_of_some hs, if_pos htaken, h]

theorem symbols_after (as : List Action) : (empty.after as).symbols = firsts (offered as) := by
  induction as using List.reverseRecOn with
  | nil => rfl
  | append_singleton as a ih =>
    rw [after, List.foldl_append]
    cases a with
    | insert s =>
      rw [offered_insert]
      exact symbols_act_insert ih s
    | clear =>
      rw [offered_clear]
      rfl

theorem Distinct.act (ht : t.Distinct) (a : Action) : (t.act a).Distinct := by
  cases a with
  | insert s =>
    cases hs : t.find? s.name with
    | none =>
      rw [act_insert_of_none hs]
      exact ht.append hs
    | some u =>
      rw [act_insert_of_some hs]
      exact ht
  | clear => exact distinct_empty

theorem distinct_after (as : List Action) : (empty.after as).Distinct := by
  induction as using List.reverseRecOn with
  | nil => exact distinct_empty
  | append_singleton as a ih =>
    rw [after, List.foldl_append]
    exact ih.act a

theorem find?_act_insert_of_ne (h : s.name ≠ name) :
    (t.act (.insert s)).find? name = t.find? name := by
  cases hs : t.find? s.name with
  | none =>
    rw [act_insert_of_none hs, find?, List.find?_append, find?]
    simp [h]
  | some u => rw [act_insert_of_some hs]

theorem answer_act_insert_of_ne (h : s.name ≠ u.name) :
    (t.act (.insert s)).answer u = t.answer u := by
  have hfind := find?_act_insert_of_ne (t := t) h
  cases hu : t.find? u.name with
  | none =>
    rw [hu] at hfind
    rw [answer, answer, insert_of_none hu, insert_of_none hfind]
    rfl
  | some v =>
    rw [hu] at hfind
    rw [answer, answer, insert_of_some hu, insert_of_some hfind]

theorem perm_act_act (h : s.name ≠ u.name) :
    ((t.act (.insert s)).act (.insert u)).symbols.Perm
      ((t.act (.insert u)).act (.insert s)).symbols := by
  have hs := find?_act_insert_of_ne (t := t) h.symm
  have hu := find?_act_insert_of_ne (t := t) h
  cases hs' : t.find? s.name with
  | some v =>
    rw [hs'] at hs
    rw [act_insert_of_some hs', act_insert_of_some hs]
  | none =>
    cases hu' : t.find? u.name with
    | some v =>
      rw [hu'] at hu
      rw [act_insert_of_some hu', act_insert_of_some hu]
    | none =>
      rw [hs'] at hs
      rw [hu'] at hu
      rw [act_insert_of_none hu, act_insert_of_none hs, act_insert_of_none hs',
        act_insert_of_none hu', List.append_assoc, List.append_assoc]
      exact (List.Perm.swap u s []).append_left _

theorem find?_of_perm (ht : t.Distinct) (ht' : t'.Distinct) (h : t.symbols.Perm t'.symbols)
    (name : Text) : t.find? name = t'.find? name := by
  ext s
  rw [find?_eq_some_iff ht, find?_eq_some_iff ht', h.mem_iff]

/-- Two symbols are entered in either order: each is answered as if there were not the other one,
and nothing but the order in the table tells which of them came first. -/
structure Commutes (t : SymbolTable) (s u : Symbol) : Prop where
  answer_left : (t.act (.insert u)).answer s = t.answer s
  answer_right : (t.act (.insert s)).answer u = t.answer u
  perm : ((t.act (.insert s)).act (.insert u)).symbols.Perm
    ((t.act (.insert u)).act (.insert s)).symbols
  find? : ∀ name, ((t.act (.insert s)).act (.insert u)).find? name =
    ((t.act (.insert u)).act (.insert s)).find? name

theorem commutes_of_ne (ht : t.Distinct) (h : s.name ≠ u.name) : t.Commutes s u where
  answer_left := answer_act_insert_of_ne h.symm
  answer_right := answer_act_insert_of_ne h
  perm := perm_act_act h
  find? := find?_of_perm ((ht.act _).act _) ((ht.act _).act _) (perm_act_act h)

/-- A table that holds the first symbols of their names, in the order in which they were entered
since it was last cleared, that answers by them, and that takes a symbol in only if its name is
new. -/
structure Remembers (as : List Action) (t : SymbolTable) : Prop where
  symbols : t.symbols = firsts (offered as)
  names : t.symbols.map Symbol.name = ((offered as).map Symbol.name).eraseDups
  distinct : t.Distinct
  first : ∀ s, s ∈ t.symbols ↔ (offered as).find? (·.name = s.name) = some s
  insert_ok : ∀ s t', t.insert s = .ok t' ↔
    (∀ u ∈ t.symbols, u.name ≠ s.name) ∧ t' = ⟨t.symbols ++ [s]⟩
  insert_error : ∀ s u, t.insert s = .error u ↔ u ∈ t.symbols ∧ u.name = s.name
  refused : ∀ s u, t.insert s = .error u → t.act (.insert s) = t
  find?_some : ∀ name s, t.find? name = some s ↔ s ∈ t.symbols ∧ s.name = name
  find?_none : ∀ name, t.find? name = none ↔ ∀ s ∈ t.symbols, s.name ≠ name
  address?_some : ∀ name a, t.address? name = some a ↔
    ∃ s ∈ t.symbols, s.name = name ∧ s.address = a
  address?_none : ∀ name, t.address? name = none ↔ ∀ s ∈ t.symbols, s.name ≠ name
  commutes : ∀ s u, s.name ≠ u.name → t.Commutes s u

/-- Whatever has been done to a table, it remembers which symbol was the first of each name. -/
theorem first_symbols_kept (as : List Action) : Remembers as (empty.after as) := by
  have ht := distinct_after as
  have hsymbols := symbols_after as
  constructor
  case symbols => exact hsymbols
  case names => rw [hsymbols, map_name_firsts]
  case distinct => exact ht
  case first =>
    intro s
    rw [← find?_firsts, ← hsymbols]
    exact ((find?_eq_some_iff ht).trans (and_iff_left rfl)).symm
  case insert_ok => exact fun _ _ ↦ insert_eq_ok_iff
  case insert_error => exact fun _ _ ↦ insert_eq_error_iff ht
  case refused =>
    intro s u h
    rw [act, h]
    rfl
  case find?_some => exact fun _ _ ↦ find?_eq_some_iff ht
  case find?_none => exact fun _ ↦ find?_eq_none_iff
  case address?_some => exact fun _ _ ↦ address?_eq_some_iff ht
  case address?_none => exact fun _ ↦ address?_eq_none_iff
  case commutes => exact fun _ _ ↦ commutes_of_ne ht

-- Names that differ in case are two names, and what stood there before the clearing is gone.
example : (empty.after [.insert ⟨['x'], 0x0600, 1⟩, .clear, .insert ⟨['l'], 0x0601, 2⟩,
    .insert ⟨['L'], 0x0602, 3⟩, .insert ⟨['l'], 0x0603, 4⟩]).symbols =
      [⟨['l'], 0x0601, 2⟩, ⟨['L'], 0x0602, 3⟩] := by
  decide

end Micro6502.SymbolTable
