import Micro6502.Proofs.Assembler
import Micro6502.Proofs.EncodingErrors
import Mathlib.Data.List.Forall2

namespace Micro6502

namespace Effect

/-- Effects that differ in the values of their bytes at most. -/
def Alike : Effect → Effect → Prop
  | bytes vs, bytes ws => vs.length = ws.length
  | relocate a, relocate b => a = b
  | _, _ => False

variable {e e' : Effect} {pc : Nat}

theorem Alike.refl (e : Effect) : e.Alike e := by
  cases e <;> rfl

theorem Alike.next_eq (h : e.Alike e') : e.next pc = e'.next pc := by
  cases e with
  | bytes vs =>
    cases e' with
    | bytes ws => exact congrArg (pc + ·) h
    | relocate b => exact h.elim
  | relocate a =>
    cases e' with
    | bytes ws => exact h.elim
    | relocate b => exact congrArg UInt16.toNat h

theorem fit_ok (h : e.fit pc = .ok e') : e' = e := by
  cases e with
  | bytes vs =>
    simp only [fit] at h
    split at h
    · exact (Except.ok.inj h).symm
    · exact absurd h nofun
  | relocate a => exact (Except.ok.inj h).symm

theorem Alike.fit (h : e.Alike e') (hf : e'.fit pc = .ok e') : e.fit pc = .ok e := by
  cases e with
  | bytes vs =>
    cases e' with
    | bytes ws =>
      have hl : vs.length = ws.length := h
      simp only [Effect.fit, hl] at hf ⊢
      split at hf
      · rename_i hb
        rw [if_pos hb]
      · exact absurd hf nofun
    | relocate b => exact h.elim
  | relocate a => rfl

end Effect

theorem Statement.effect_index {st : Statement} {pc pc' : Nat} {s t : SymbolTable} {e' : Effect}
    (h : st.effect .commit t pc = .ok e')
    (hpc' : ∀ name operand, st = .instruction name operand → pc ≤ 0xFFFF → pc' ≤ 0xFFFF) :
    ∃ e, st.effect .index s pc' = .ok e ∧ e.Alike e' := by
  cases st with
  | empty =>
    cases h
    exact ⟨_, rfl, rfl⟩
  | relocate target => exact ⟨_, h, .refl _⟩
  | bytes list => exact ⟨_, h, .refl _⟩
  | instruction name operand =>
    obtain ⟨bs, hbs, rfl⟩ := Except.map_eq_ok_iff.1 h
    unfold instruct at hbs
    cases hm : Mnemonic.ofName? name with
    | none =>
      rw [hm] at hbs
      exact absurd hbs nofun
    | some m =>
      simp only [hm] at hbs
      split at hbs
      · rename_i hpc
        obtain ⟨cs, hcs, hl⟩ : ∃ cs, (Site.mk (UInt16.ofNat pc') .index s).encode m operand =
            .ok cs ∧ cs.length = bs.length := Site.encode_index hbs
        refine ⟨.bytes cs, ?_, hl⟩
        simp only [effect, instruct, hm, if_pos (hpc' name operand rfl hpc), hcs, Except.map_ok]
      · exact absurd hbs nofun

namespace Visit

variable {v w : Visit} {vs ws : List Visit}

structure Agrees (v w : Visit) : Prop where
  number : v.number = w.number
  pc : v.pc = w.pc
  text : v.text = w.text
  effect : v.effect.Alike w.effect

theorem Agrees.label? (h : v.Agrees w) : v.label? = w.label? := by
  simp only [Visit.label?, h.text]

theorem Agrees.symbol? (h : v.Agrees w) : v.symbol? = w.symbol? := by
  simp only [Visit.symbol?, h.label?, h.pc, h.number]

theorem filterMap_symbol?_eq (h : List.Forall₂ Agrees vs ws) :
    vs.filterMap Visit.symbol? = ws.filterMap Visit.symbol? := by
  induction h with
  | nil => rfl
  | cons hvw _ ih => simp only [List.filterMap_cons, hvw.symbol?, ih]

theorem exists_agrees (h : List.Forall₂ Agrees vs ws) (hw : w ∈ ws) : ∃ v ∈ vs, v.Agrees w := by
  induction h with
  | nil => exact absurd hw List.not_mem_nil
  | cons hvw _ ih =>
    obtain rfl | hw := List.mem_cons.1 hw
    · exact ⟨_, List.mem_cons_self, hvw⟩
    · obtain ⟨v, hv, ha⟩ := ih hw
      exact ⟨v, List.mem_cons_of_mem _ hv, ha⟩

end Visit

namespace Pass

variable {number pc end_ end' : Nat} {s t s' t' : SymbolTable} {text : Text} {lines : List Text}
  {e e' : Effect}

theorem line_alike (hi : index.line number pc s text = .ok (s', e))
    (hc : commit.line number pc t text = .ok (t', e')) : e.Alike e' := by
  obtain ⟨-, l, hl, hc⟩ := line_commit_ok hc
  obtain ⟨hn, -⟩ | ⟨l', hl', -, hi⟩ := line_eq_ok_iff.1 hi
  · exact absurd (hl.symm.trans hn) nofun
  · obtain rfl : l = l' := Option.some.inj (hl.symm.trans hl')
    obtain ⟨f', he', hf'⟩ := Except.bind_eq_ok_iff.1 hc
    obtain rfl := Effect.fit_ok hf'
    obtain ⟨f, he, ha⟩ := Statement.effect_index (s := s') he' fun _ _ _ hpc ↦ hpc
    rw [he, Except.ok_bind, ha.fit hf', excuse_ok] at hi
    exact Except.ok.inj hi ▸ ha

/-- Where both passes reach the end of a source they come to its lines at the same places. -/
theorem visits_agree (hi : (index.walk number pc s lines).counter = .ok end_)
    (hc : (commit.walk number pc t lines).counter = .ok end') :
    List.Forall₂ Visit.Agrees (index.visits number pc s lines)
      (commit.visits number pc t lines) := by
  -- The tables grow apart from line to line, so the induction is over any two of them.
  induction lines generalizing number pc s t with
  | nil => exact .nil
  | cons text rest ih =>
    obtain ⟨s', e, hli, hri⟩ := walk_cons_counter hi
    obtain ⟨t', e', hlc, hrc⟩ := walk_cons_counter hc
    have ha := line_alike hli hlc
    rw [ha.next_eq] at hri
    rw [visits_cons_ok hli, visits_cons_ok hlc, ha.next_eq]
    exact .cons ⟨rfl, rfl, rfl, ha⟩ (ih hri hrc)

end Pass

end Micro6502
