import Mathlib.Data.List.Find
import Micro6502.Proofs.Failure
import Micro6502.Proofs.OperandNames
import Micro6502.Proofs.Rewording

namespace Micro6502

namespace SymbolTable

def rename (f : Text → Text) (t : SymbolTable) : SymbolTable :=
  ⟨t.symbols.map fun s ↦ { s with name := f s.name }⟩

variable {t : SymbolTable} {f : Text → Text} {name : Text}

theorem find?_rename (h : ∀ s ∈ t.symbols, f s.name = f name → s.name = name) :
    (t.rename f).find? (f name) = (t.find? name).map fun s ↦ { s with name := f s.name } := by
  have hfind : t.symbols.find? (fun s ↦ f s.name = f name) = t.find? name := by
    refine List.find?_congr fun s hs ↦ decide_eq_decide.2 ⟨h s hs, fun hn ↦ congrArg f hn⟩
  rw [find?, rename, List.find?_map]
  exact congrArg _ hfind

theorem address?_rename (h : ∀ s ∈ t.symbols, f s.name = f name → s.name = name) :
    (t.rename f).address? (f name) = t.address? name := by
  rw [address?, find?_rename h, Option.map_map]
  rfl

end SymbolTable

namespace LineError

def rename (f : Text → Text) : LineError → LineError
  | labelRedefined name first => labelRedefined (f name) first
  | unresolvedLabel name => unresolvedLabel (f name)
  | e => e

end LineError

def Translation.ofNames (f : Text → Text) : Translation :=
  ⟨SymbolTable.rename f, LineError.rename f⟩

namespace Literal

variable {f : Text → Text}

theorem mapError_number (base : Nat) (ds : Text) :
    (number base ds).mapError (LineError.rename f) = number base ds := by
  unfold number
  split
  · rfl
  · rfl

theorem mapError_byte (v : Nat) : (byte v).mapError (LineError.rename f) = byte v :=
  Except.mapError_eq_self fun e h ↦ by
    obtain ⟨-, rfl⟩ := byte_eq_error_iff.1 h
    rfl

theorem mapError_word (v : Nat) : (word v).mapError (LineError.rename f) = word v :=
  Except.mapError_eq_self fun e h ↦ by
    obtain ⟨-, rfl⟩ := word_eq_error_iff.1 h
    rfl

end Literal

namespace Site

variable {f : Text → Text} {pc : UInt16} {pass : Pass} {s : SymbolTable} {name : Text}
  {mode : AddressingMode} {o : Operand}

theorem branchOffset_rename (target : UInt16) :
    (Site.mk pc pass (s.rename f)).branchOffset target =
      ((Site.mk pc pass s).branchOffset target).mapError (LineError.rename f) :=
  (Except.mapError_eq_self fun e h ↦ by
    obtain ⟨-, -, rfl⟩ := branchOffset_eq_error_iff.1 h
    rfl).symm

theorem resolve_rename (h : (s.rename f).address? (f name) = s.address? name) :
    (Site.mk pc pass (s.rename f)).resolve (f name) =
      ((Site.mk pc pass s).resolve name).mapError (LineError.rename f) := by
  simp only [resolve, h]
  cases s.address? name with
  | some a => rfl
  | none => cases pass <;> rfl

theorem numberBytes_rename (v : Nat) : (Site.mk pc pass (s.rename f)).numberBytes mode v =
    ((Site.mk pc pass s).numberBytes mode v).mapError (LineError.rename f) := by
  unfold numberBytes
  split
  · simp only [Except.mapError_bind, Literal.mapError_word, branchOffset_rename]
    rfl
  · split
    · rw [Except.mapError_map, Literal.mapError_word]
    · rw [Except.mapError_map, Literal.mapError_byte]

/-- An operand has the same bytes under another name, and fails for the same reason. -/
theorem operandBytes_rename
    (h : ∀ name, o.name? = some name → (s.rename f).address? (f name) = s.address? name) :
    (Site.mk pc pass (s.rename f)).operandBytes mode (o.rename f) =
      ((Site.mk pc pass s).operandBytes mode o).mapError (LineError.rename f) := by
  cases o with
  | none => rfl
  | hex ds =>
    simp only [Operand.rename, operandBytes]
    rw [Except.mapError_bind, Literal.mapError_number]
    exact congrArg (_ >>= ·) (funext fun v ↦ numberBytes_rename v)
  | decimal ds =>
    simp only [Operand.rename, operandBytes]
    rw [Except.mapError_bind, Literal.mapError_number]
    refine congrArg (_ >>= ·) (funext fun v ↦ ?_)
    rw [Except.mapError_map, Literal.mapError_byte]
  | label name =>
    simp only [Operand.rename, operandBytes]
    rw [Except.mapError_bind, resolve_rename (h name rfl)]
    refine congrArg (_ >>= ·) (funext fun a ↦ ?_)
    split
    · cases a with
      | none => rfl
      | some target =>
        dsimp only
        rw [Except.mapError_map, branchOffset_rename]
    · rfl
  | lowByte name | highByte name =>
    simp only [Operand.rename, operandBytes, h name rfl]
    rfl

theorem encode_rename {m : Mnemonic} {t t' : Text}
    (hread : m.read? t' = (m.read? t).map (Reading.rename f)) (hnone : m.read? t = none → t' = t)
    (h : ∀ r name, m.read? t = some r → r.operand.name? = some name →
      (s.rename f).address? (f name) = s.address? name) :
    (Site.mk pc pass (s.rename f)).encode m t' =
      ((Site.mk pc pass s).encode m t).mapError (LineError.rename f) := by
  rw [encode, encode, hread]
  cases hr : m.read? t with
  | none =>
    rw [hnone hr]
    rfl
  | some r =>
    dsimp only [Option.map_some, Reading.rename]
    cases m.opcode? r.mode with
    | none => rfl
    | some opcode =>
      refine (congrArg (Except.map (opcode :: ·)) (operandBytes_rename (h r · hr))).trans ?_
      exact (Except.mapError_map _ _ _).symm

end Site

namespace Statement

variable {f : Text → Text} {st st' : Statement} {pass : Pass} {s : SymbolTable} {pc : Nat}

/-- A statement and the same statement with another name for the label that it names. -/
inductive Renames (f : Text → Text) : Statement → Statement → Prop
  | same {st : Statement} (h : st.name? = none) : Renames f st st
  | operand {name operand operand' : Text} {m : Mnemonic} {r : Reading}
      (hm : Mnemonic.ofName? name = some m) (hr : m.read? operand = some r)
      (hr' : m.read? operand' = some (r.rename f)) :
      Renames f (.instruction name operand) (.instruction name operand')

theorem mapError_effect (hst : ∀ name operand, st ≠ .instruction name operand) :
    st.effect pass (s.rename f) pc = (st.effect pass s pc).mapError (LineError.rename f) := by
  refine Eq.symm ?_
  cases st with
  | empty => rfl
  | relocate target =>
    exact Except.mapError_eq_self fun e h ↦ by
      obtain ⟨-, rfl⟩ | ⟨v, -, -, rfl⟩ := relocation_eq_error_iff.1 h
      · rfl
      · rfl
  | bytes list =>
    exact Except.mapError_eq_self fun e h ↦ by
      obtain ⟨entry, -, he⟩ := Except.exists_of_mapM_eq_error (Except.map_eq_error_iff.1 h)
      obtain ⟨-, rfl⟩ | ⟨v, -, -, rfl⟩ := literal_eq_error_iff.1 he
      · rfl
      · rfl
  | instruction name operand => exact absurd rfl (hst name operand)

theorem instruct_rename {name operand operand' : Text}
    (h : ∀ m, Mnemonic.ofName? name = some m →
      (Site.mk (UInt16.ofNat pc) pass (s.rename f)).encode m operand' =
        ((Site.mk (UInt16.ofNat pc) pass s).encode m operand).mapError (LineError.rename f)) :
    instruct pass (s.rename f) pc name operand' =
      (instruct pass s pc name operand).mapError (LineError.rename f) := by
  unfold instruct
  cases hm : Mnemonic.ofName? name with
  | none => rfl
  | some m =>
    dsimp only
    split
    · exact h m hm
    · rfl

theorem Renames.effect (h : Renames f st st')
    (hs : ∀ name, st.name? = some name → (s.rename f).address? (f name) = s.address? name) :
    st'.effect pass (s.rename f) pc = (st.effect pass s pc).mapError (LineError.rename f) := by
  cases h with
  | @same st hname =>
    cases st with
    | empty | relocate target | bytes list => exact mapError_effect nofun
    | instruction name operand =>
      refine (congrArg (Except.map Effect.bytes) (instruct_rename fun m hm ↦ ?_)).trans
        (Except.mapError_map _ _ _).symm
      have hnone : ∀ r, m.read? operand = some r → r.operand.name? = none := fun r hr ↦ by
        simpa only [name?, reading?, hm, hr, Option.bind_some] using hname
      refine Site.encode_rename ?_ (fun _ ↦ rfl) fun r n hr hn ↦ ?_
      · cases hr : m.read? operand with
        | none => rfl
        | some r =>
          exact congrArg some (congrArg (Reading.mk r.toInstruction)
            (Operand.rename_eq_self (hnone r hr)).symm)
      · exact absurd ((hnone r hr).symm.trans hn) nofun
  | @operand name operand operand' m r hm hr hr' =>
    refine (congrArg (Except.map Effect.bytes) (instruct_rename fun m' hm' ↦ ?_)).trans
      (Except.mapError_map _ _ _).symm
    obtain rfl : m = m' := Option.some.inj (hm.symm.trans hm')
    refine Site.encode_rename ?_ (fun hn ↦ ?_) fun r' n hr₂ hn ↦ hs n ?_
    · rw [hr, hr', Option.map_some]
    · rw [hr] at hn
      cases hn
    · simp only [name?, reading?, hm, hr₂, Option.bind_some, hn]

end Statement

namespace Pass

variable {f : Text → Text} {pass : Pass} {number pc : Nat} {s : SymbolTable}

theorem excuse_mapError (r : Except LineError Effect) :
    pass.excuse (r.mapError (LineError.rename f)) =
      (pass.excuse r).mapError (LineError.rename f) := by
  cases pass <;> cases r <;> rfl

theorem declare_rename {label : Option Text}
    (h : ∀ name, label = some name → ∀ x ∈ s.symbols, f x.name = f name → x.name = name) :
    pass.declare number pc (label.map f) (s.rename f) =
      ((pass.declare number pc label s).map (SymbolTable.rename f)).mapError
        (LineError.rename f) := by
  cases pass with
  | commit => rfl
  | index =>
    cases label with
    | none => rfl
    | some name =>
      have hfind := SymbolTable.find?_rename (h name rfl)
      simp only [declare, Option.map_some, SymbolTable.insert, hfind]
      split
      · cases s.find? name with
        | some existing => rfl
        | none =>
          refine congrArg (Except.ok ∘ SymbolTable.mk) ?_
          rw [List.map_append]
          rfl
      · rfl

end Pass

theorem Effect.fit_mapError {f : Text → Text} {pc : Nat} (e : Effect) :
    (e.fit pc).mapError (LineError.rename f) = e.fit pc := by
  cases e with
  | bytes vs =>
    unfold fit
    dsimp only
    split
    · rfl
    · rfl
  | relocate a => rfl

theorem Pass.line_rename {f : Text → Text} {pass : Pass} {number pc : Nat} {s : SymbolTable}
    {text text' : Text}
    (hparse : Option.Rel (fun l l' ↦ l'.label = l.label.map f ∧ l.statement.Renames f l'.statement)
      (Line.parse? text) (Line.parse? text'))
    (hlabel : ∀ l name, Line.parse? text = some l → l.label = some name →
      ∀ x ∈ s.symbols, f x.name = f name → x.name = name)
    (haddress : ∀ l s' name, Line.parse? text = some l →
      pass.declare number pc l.label s = .ok s' → l.statement.name? = some name →
      (s'.rename f).address? (f name) = s'.address? name) :
    pass.line number pc (s.rename f) text' =
      (Translation.ofNames f).outcome (pass.line number pc s text) := by
  unfold line
  cases hl : Line.parse? text with
  | none =>
    rw [hl] at hparse
    cases hl' : Line.parse? text' with
    | some l' =>
      rw [hl'] at hparse
      cases hparse
    | none => cases pass <;> rfl
  | some l =>
    rw [hl] at hparse
    cases hl' : Line.parse? text' with
    | none =>
      rw [hl'] at hparse
      cases hparse
    | some l' =>
      rw [hl'] at hparse
      obtain ⟨hname, hst⟩ : l'.label = l.label.map f ∧ _ := by
        cases hparse
        assumption
      dsimp only
      rw [hname, declare_rename (hlabel l · hl)]
      cases hd : pass.declare number pc l.label s with
      | error e => rfl
      | ok s' =>
        have heffect : (l'.statement.effect pass (s'.rename f) pc >>= Effect.fit pc) =
            (l.statement.effect pass s' pc >>= Effect.fit pc).mapError (LineError.rename f) := by
          rw [hst.effect (haddress l s' · hl hd), Except.mapError_bind]
          exact congrArg (_ >>= ·) (funext fun e ↦ (Effect.fit_mapError e).symm)
        change (pass.excuse (l'.statement.effect pass (s'.rename f) pc >>= Effect.fit pc) >>=
          fun e ↦ .ok (s'.rename f, e)) = _
        rw [heffect, excuse_mapError]
        change _ = (Translation.ofNames f).outcome
          (pass.excuse (l.statement.effect pass s' pc >>= Effect.fit pc) >>= fun e ↦ .ok (s', e))
        cases pass.excuse (l.statement.effect pass s' pc >>= Effect.fit pc) with
        | error e => rfl
        | ok e => rfl

end Micro6502
