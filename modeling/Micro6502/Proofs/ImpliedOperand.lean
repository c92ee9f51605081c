import Micro6502.Proofs.EncodingErrors

namespace Micro6502.Mnemonic

open AddressingMode

variable {m : Mnemonic} {t : Text} {mode : AddressingMode} {opcode : UInt8}

def shifts : List Mnemonic := [asl, lsr, rol, ror]

structure Implied (m : Mnemonic) : Prop where
  supports : m.supports single = true
  not_mem : m ∉ shifts

/-- No operand text is let pass where none is taken, and the name of the accumulator only where
there is an accumulator to work on. -/
structure RefusesStray (m : Mnemonic) (t : Text) : Prop where
  implied : m.Implied → t ≠ [] → ∀ site : Site, site.encode m t = .error (.invalidOperand m t)
  accumulator : t = ['A'] ∨ t = ['a'] → m.mode? t = some single → m ∈ shifts

theorem supports_of_single : ∀ m ∈ all, m.supports single = true → m ∉ shifts →
    ∀ mode ∈ matchOrder, m.supports mode = true → mode = single := by
  decide +kernel

theorem Implied.eq_single (h : m.Implied) (hs : m.supports mode = true) : mode = single :=
  supports_of_single m m.mem_all h.supports h.not_mem mode mode.mem_matchOrder hs

theorem mode?_single_iff :
    m.mode? t = some single ↔ m.supports single = true ∧ (t = [] ∨ t = ['A'] ∨ t = ['a']) := by
  rw [mode?_eq_some_iff]
  constructor
  · rintro ⟨⟨hs, o, ht, -⟩, -⟩
    exact ⟨hs, ht⟩
  · rintro ⟨hs, ht⟩
    exact ⟨⟨hs, .none, ht, rfl⟩, fun mode hp ↦ absurd hp (Nat.not_lt_zero _)⟩

theorem encode_of_mode?_single (h : m.mode? t = some single) (ho : m.opcode? single = some opcode)
    (site : Site) : site.encode m t = .ok [opcode] := by
  obtain ⟨o, hselects⟩ := exists_selects h
  obtain ⟨opcode', hopcode, hencode⟩ := hselects.encode_eq
  obtain ⟨-, rfl⟩ := hselects.taken
  cases ho.symm.trans hopcode
  rw [hencode]
  rfl

theorem Implied.encode (h : m.Implied) (hne : t ≠ []) (ha : t ≠ ['A'] ∧ t ≠ ['a'])
    (site : Site) : site.encode m t = .error (.invalidOperand m t) := by
  refine Site.encode_eq_error_iff.2 (.operand ?_)
  cases hm : m.mode? t with
  | none => rfl
  | some mode =>
    obtain ⟨htakes, -⟩ := mode?_eq_some_iff.1 hm
    obtain rfl := h.eq_single htakes.supports
    obtain ⟨-, ht⟩ := mode?_single_iff.1 hm
    simp [hne, ha] at ht

/-- Stray operands are refused, other than the accumulator's name behind an instruction that takes
no operand. -/
theorem refusesStray_iff (m : Mnemonic) (t : Text) :
    m.RefusesStray t ↔ (m.Implied → t ≠ ['A'] ∧ t ≠ ['a']) := by
  constructor
  · intro h hm
    rw [← not_or]
    intro ht
    exact hm.not_mem (h.accumulator ht (mode?_single_iff.2 ⟨hm.supports, .inr ht⟩))
  · intro h
    constructor
    case implied => exact fun hm hne ↦ hm.encode hne (h hm)
    case accumulator =>
      intro ht hmode
      by_contra hs
      exact absurd ht (not_or.2 (h ⟨(mode?_single_iff.1 hmode).1, hs⟩))

/-- An instruction on X that is given the accumulator is encoded as if it had been given nothing. -/
theorem not_refusesStray_inx : inx.Implied ∧ ¬ inx.RefusesStray ['A'] ∧
    ∀ site : Site, site.encode inx ['A'] = .ok [0xE8] ∧ site.encode inx [] = .ok [0xE8] := by
  have hm : inx.Implied := ⟨by decide, by decide⟩
  refine ⟨hm, fun h ↦ ?_, fun site ↦ ⟨?_, ?_⟩⟩
  · exact hm.not_mem (h.accumulator (.inl rfl) (by decide +kernel))
  · exact encode_of_mode?_single (by decide +kernel) (by decide +kernel) site
  · exact encode_of_mode?_single (by decide +kernel) (by decide +kernel) site

end Micro6502.Mnemonic
