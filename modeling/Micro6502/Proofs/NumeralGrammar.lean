import Mathlib.Data.List.Induction
import Mathlib.Data.Nat.Basic
import Micro6502.Assembly.Pass
import Micro6502.Proofs.Numeral

namespace Micro6502

namespace Numeral

inductive IsDigitOf : Char → Nat → Prop
  | figure {c : Char} (hlo : '0' ≤ c) (hhi : c ≤ '9') : IsDigitOf c (c.toNat - '0'.toNat)
  | capital {c : Char} (hlo : 'A' ≤ c) (hhi : c ≤ 'F') : IsDigitOf c (10 + (c.toNat - 'A'.toNat))
  | small {c : Char} (hlo : 'a' ≤ c) (hhi : c ≤ 'f') : IsDigitOf c (10 + (c.toNat - 'a'.toNat))

inductive Digits (base : Nat) : Text → Nat → Prop
  | first {c : Char} {d : Nat} (hc : IsDigitOf c d) (hd : d < base) : Digits base [c] d
  | next {ds : Text} {n : Nat} {c : Char} {d : Nat} (hds : Digits base ds n) (hc : IsDigitOf c d)
      (hd : d < base) : Digits base (ds ++ [c]) (n * base + d)

inductive Denotes : Text → Nat → Prop
  | hexadecimal {ds : Text} {n : Nat} (h : Digits 16 ds n) : Denotes ('$' :: ds) n
  | binary {ds : Text} {n : Nat} (h : Digits 2 ds n) : Denotes ('%' :: ds) n
  | decimal {ds : Text} {n : Nat} (h : Digits 10 ds n) : Denotes ds n

/-- The same with a plus sign behind the mark of the base. -/
inductive DenotesSigned : Text → Nat → Prop
  | hexadecimal {ds : Text} {n : Nat} (h : Digits 16 ds n) : DenotesSigned ('$' :: '+' :: ds) n
  | binary {ds : Text} {n : Nat} (h : Digits 2 ds n) : DenotesSigned ('%' :: '+' :: ds) n

variable {base n d : Nat} {ds t : Text} {c : Char}

theorem isDigitOf_iff : IsDigitOf c d ↔ digit c = d ∧ d < 16 := by
  have hends : '0'.toNat = 48 ∧ '9'.toNat = 57 ∧ 'A'.toNat = 65 ∧ 'F'.toNat = 70 ∧
      'a'.toNat = 97 ∧ 'f'.toNat = 102 := by decide
  have hfigure : c.isDigit = true ↔ 48 ≤ c.toNat ∧ c.toNat ≤ 57 := Char.isDigit_iff_toNat
  constructor
  · intro h
    cases h with
    | figure hlo hhi | capital hlo hhi | small hlo hhi =>
      rw [char_le_iff] at hlo hhi
      simp only [digit, hfigure, char_le_iff]
      split_ifs <;> omega
  · rintro ⟨rfl, hd⟩
    unfold digit at hd ⊢
    split_ifs at hd ⊢ with hf hs hc
    · exact .figure (char_le_iff.2 (hfigure.1 hf).1) (char_le_iff.2 (hfigure.1 hf).2)
    · have hle := char_le_iff.1 hs.1
      rw [show c.toNat - 87 = 10 + (c.toNat - 'a'.toNat) by omega]
      exact .small hs.1 hs.2
    · have hle := char_le_iff.1 hc.1
      rw [show c.toNat - 55 = 10 + (c.toNat - 'A'.toNat) by omega]
      exact .capital hc.1 hc.2
    · exact absurd hd (lt_irrefl 16)

theorem isDigitOf_digit (hb : base ≤ 16) (h : isDigit base c = true) :
    IsDigitOf c (digit c) ∧ digit c < base := by
  have hd : digit c < base := of_decide_eq_true h
  exact ⟨isDigitOf_iff.2 ⟨rfl, Nat.lt_of_lt_of_le hd hb⟩, hd⟩

theorem value_append_singleton (base : Nat) (ds : Text) (c : Char) :
    value base (ds ++ [c]) = value base ds * base + digit c := by
  simp only [value, List.foldl_append, List.foldl_cons, List.foldl_nil]

theorem value_singleton (base : Nat) (c : Char) : value base [c] = digit c := by
  rw [← List.nil_append [c], value_append_singleton]
  exact (congrArg (· + digit c) (Nat.zero_mul base)).trans (Nat.zero_add _)

theorem Digits.ne_nil (h : Digits base ds n) : ds ≠ [] := by
  cases h <;> simp

theorem Digits.all (h : Digits base ds n) : ∀ c ∈ ds, isDigit base c = true := by
  have hdigit {c : Char} {d : Nat} (hc : IsDigitOf c d) (hd : d < base) :
      isDigit base c = true :=
    decide_eq_true ((isDigitOf_iff.1 hc).1 ▸ hd)
  induction h with
  | first hc hd => exact List.forall_mem_singleton.2 (hdigit hc hd)
  | next _ hc hd ih =>
    exact List.forall_mem_append.2 ⟨ih, List.forall_mem_singleton.2 (hdigit hc hd)⟩

theorem Digits.value_eq (h : Digits base ds n) : value base ds = n := by
  induction h with
  | first hc hd => rw [value_singleton, (isDigitOf_iff.1 hc).1]
  | next _ hc hd ih => rw [value_append_singleton, ih, (isDigitOf_iff.1 hc).1]

theorem digits_value (hb : base ≤ 16) (hne : ds ≠ []) (h : ∀ c ∈ ds, isDigit base c = true) :
    Digits base ds (value base ds) := by
  -- From the right, as the last digit is the one that is added.
  induction ds using List.reverseRecOn with
  | nil => exact absurd rfl hne
  | append_singleton ds c ih =>
    obtain ⟨hds, hc⟩ := List.forall_mem_append.1 h
    obtain ⟨hdigit, hlt⟩ := isDigitOf_digit hb (hc c (List.mem_singleton_self c))
    by_cases hnil : ds = []
    · subst hnil
      rw [List.nil_append, value_singleton]
      exact .first hdigit hlt
    · rw [value_append_singleton]
      exact .next (ih hnil hds) hdigit hlt

theorem ofDigits?_eq_some_iff (hb : base ≤ 16) :
    ofDigits? base ds = some n ↔ Digits base ds n ∧ n < limit := by
  unfold ofDigits?
  constructor
  · intro h
    split at h
    · rename_i hds
      obtain ⟨hne, hall, hlt⟩ := hds
      cases h
      exact ⟨digits_value hb hne (List.all_eq_true.1 hall), hlt⟩
    · cases h
  · rintro ⟨h, hlt⟩
    have hvalue := h.value_eq
    rw [hvalue, if_pos ⟨h.ne_nil, List.all_eq_true.2 h.all, hlt⟩]

theorem Digits.not_cons (hc : isDigit base c = false) : ¬ Digits base (c :: ds) n :=
  fun h ↦ Bool.false_ne_true (hc.symm.trans (h.all c List.mem_cons_self))

theorem ofDigits?_dropPlus_eq_some_iff (hb : base ≤ 16) (hplus : isDigit base '+' = false) :
    ofDigits? base (dropPlus ds) = some n ↔
      (Digits base ds n ∨ ∃ es, ds = '+' :: es ∧ Digits base es n) ∧ n < limit := by
  rw [ofDigits?_eq_some_iff hb]
  refine and_congr_left fun _ ↦ ?_
  unfold dropPlus
  split
  · rename_i es
    constructor
    · exact fun h ↦ .inr ⟨es, rfl, h⟩
    · rintro (h | ⟨es', hes, h⟩)
      · exact absurd h (Digits.not_cons hplus)
      · cases hes
        exact h
  · rename_i hds
    refine (or_iff_left ?_).symm
    rintro ⟨es, rfl, -⟩
    exact hds es rfl

theorem denotes_dollar_iff : Denotes ('$' :: ds) n ↔ Digits 16 ds n := by
  constructor
  · intro h
    cases h with
    | hexadecimal h => exact h
    | decimal h => exact absurd h (Digits.not_cons (by decide))
  · exact .hexadecimal

theorem denotes_percent_iff : Denotes ('%' :: ds) n ↔ Digits 2 ds n := by
  constructor
  · intro h
    cases h with
    | binary h => exact h
    | decimal h => exact absurd h (Digits.not_cons (by decide))
  · exact .binary

theorem denotesSigned_dollar_iff :
    DenotesSigned ('$' :: ds) n ↔ ∃ es, ds = '+' :: es ∧ Digits 16 es n := by
  constructor
  · intro h
    cases h with
    | hexadecimal h => exact ⟨_, rfl, h⟩
  · rintro ⟨es, rfl, h⟩
    exact .hexadecimal h

theorem denotesSigned_percent_iff :
    DenotesSigned ('%' :: ds) n ↔ ∃ es, ds = '+' :: es ∧ Digits 2 es n := by
  constructor
  · intro h
    cases h with
    | binary h => exact ⟨_, rfl, h⟩
  · rintro ⟨es, rfl, h⟩
    exact .binary h

theorem parse?_eq_some_iff :
    parse? t = some n ↔ (Denotes t.trim n ∨ DenotesSigned t.trim n) ∧ n < limit := by
  unfold parse?
  generalize t.trim = u
  split
  · rw [ofDigits?_dropPlus_eq_some_iff le_rfl (by decide), denotes_dollar_iff,
      denotesSigned_dollar_iff]
  · rw [ofDigits?_dropPlus_eq_some_iff (by decide) (by decide), denotes_percent_iff,
      denotesSigned_percent_iff]
  · rename_i hdollar hpercent
    rw [ofDigits?_eq_some_iff (by decide)]
    refine and_congr_left fun _ ↦ ?_
    constructor
    · exact fun h ↦ .inl (.decimal h)
    · rintro (h | h)
      · cases h with
        | hexadecimal h => exact absurd rfl (hdollar _)
        | binary h => exact absurd rfl (hpercent _)
        | decimal h => exact h
      · cases h with
        | hexadecimal h => exact absurd rfl (hdollar _)
        | binary h => exact absurd rfl (hpercent _)

theorem DenotesSigned.not_denotes {m : Nat} (h : DenotesSigned t n) : ¬ Denotes t m := by
  cases h with
  | hexadecimal h =>
    rw [denotes_dollar_iff]
    exact Digits.not_cons (by decide)
  | binary h =>
    rw [denotes_percent_iff]
    exact Digits.not_cons (by decide)

end Numeral

theorem Statement.literal_eq_ok_iff {entry : Text} {b : UInt8} :
    literal entry = .ok b ↔ Numeral.parse? entry = some b.toNat := by
  unfold literal
  cases Numeral.parse? entry with
  | none => exact ⟨nofun, nofun⟩
  | some v =>
    have hb := b.toNat_lt
    dsimp only [Literal.byte]
    rw [Option.some.injEq]
    constructor
    · intro h
      split at h
      · rename_i hv
        cases h
        exact (UInt8.toNat_ofNat_of_lt (show v < 0x100 by omega)).symm
      · cases h
    · rintro rfl
      rw [if_pos (by omega), UInt8.ofNat_toNat]

namespace Numeral

/-- A text is read as the number that it denotes between its blanks, if that has at most 32 bits,
and is refused else. So the bytes of a list are those that its entries denote. -/
structure ReadAsWritten (t : Text) : Prop where
  value : ∀ n, parse? t = some n ↔ Denotes t.trim n ∧ n < 2 ^ 32
  refused : (¬ ∃ n, Denotes t.trim n ∧ n < 2 ^ 32) →
    Statement.relocation t = .error (.invalidNumber t.trim)
  entry : ∀ b, Statement.literal t = .ok b → Denotes t.trim b.toNat

variable {t : Text}

/-- The texts that are not read as they are written are numerals with a plus sign. -/
theorem readAsWritten_iff : ReadAsWritten t ↔ ∀ n, DenotesSigned t.trim n → 2 ^ 32 ≤ n := by
  constructor
  · intro h n hsigned
    by_contra hlt
    have hlimit : n < limit := Nat.lt_of_not_le hlt
    have hread := (h.value n).1 (parse?_eq_some_iff.2 ⟨.inr hsigned, hlimit⟩)
    exact hsigned.not_denotes hread.1
  · intro h
    have hvalue (n : Nat) : parse? t = some n ↔ Denotes t.trim n ∧ n < 2 ^ 32 := by
      rw [parse?_eq_some_iff]
      refine and_congr_left fun hlt ↦ or_iff_left fun hsigned ↦ ?_
      exact absurd hlt (Nat.not_lt.2 (h n hsigned))
    constructor
    case value => exact hvalue
    case refused =>
      intro hnone
      have hparse : parse? t = none := by
        cases hp : parse? t with
        | none => rfl
        | some n => exact absurd ⟨n, (hvalue n).1 hp⟩ hnone
      rw [Statement.relocation, hparse]
    case entry =>
      intro b hb
      exact ((hvalue b.toNat).1 (Statement.literal_eq_ok_iff.1 hb)).1

def signed : Text := "$+FF".toList

/-- It denotes nothing, but it is read, also as an entry of a byte list. -/
theorem not_readAsWritten_signed :
    (∀ n, ¬ Denotes signed.trim n) ∧ parse? signed = some 255 ∧
      Statement.literal signed = .ok 255 ∧ ¬ ReadAsWritten signed := by
  have htrim : signed.trim = '$' :: '+' :: "FF".toList := by decide +kernel
  have hnone (n : Nat) : ¬ Denotes signed.trim n := by
    rw [htrim, denotes_dollar_iff]
    exact Digits.not_cons (by decide)
  have hparse : parse? signed = some 255 := by decide +kernel
  refine ⟨hnone, hparse, by decide +kernel, fun h ↦ ?_⟩
  exact hnone 255 ((h.value 255).1 hparse).1

end Numeral

end Micro6502
