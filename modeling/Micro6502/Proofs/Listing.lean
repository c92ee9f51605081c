import Micro6502.Proofs.Assembler
import Micro6502.Proofs.Overlay
import Micro6502.Proofs.Reassembly

namespace Micro6502

namespace Mnemonic

theorem all_isWordChar_name (m : Mnemonic) : m.name.toList.all Text.isWordChar = true := by
  cases m <;> decide

theorem isWordChar_name (m : Mnemonic) : ∀ c ∈ m.name.toList, Text.isWordChar c = true :=
  List.all_eq_true.1 m.all_isWordChar_name

theorem capitals_name (m : Mnemonic) : Text.capitals m.name.toList = m.name.toList := by
  cases m <;> decide

theorem name_ne_nil (m : Mnemonic) : m.name.toList ≠ [] := by
  cases m <;> decide

theorem name_ne_bytesWord (m : Mnemonic) : m.name.toList ≠ Line.bytesWord := by
  cases m <;> decide

theorem ofName?_name (m : Mnemonic) : ofName? m.name.toList = some m := by
  cases m <;> decide

end Mnemonic

namespace Encoded

open AddressingMode

variable {pc : Nat} {e : Encoded} {es : List Encoded}

theorem isSolid_operandText (pc : Nat) (bs : List UInt8) (mode : AddressingMode) :
    ∀ c ∈ operandText pc bs mode, Line.IsSolid c := by
  have hhex {t : Text} (ht : ∀ c ∈ t, Numeral.isHexDigit c = true) : ∀ c ∈ t, Line.IsSolid c :=
    fun c hc ↦ Line.isSolid_of_isWordChar (Numeral.isWordChar_of_isHexDigit (ht c hc))
  have hdigits := hhex (isHexDigit_digits bs)
  have htarget : ∀ c ∈ bs.flatMap fun offset ↦ Hexadecimal.word (UInt16.ofInt (target pc offset)),
      Line.IsSolid c := by
    intro c hc
    obtain ⟨offset, -, hc⟩ := List.mem_flatMap.1 hc
    exact hhex (Hexadecimal.isHexDigit_word _) c hc
  have hmarks : Line.IsSolid '#' ∧ Line.IsSolid '$' ∧ Line.IsSolid ',' ∧ Line.IsSolid '(' ∧
      Line.IsSolid ')' ∧ Line.IsSolid 'X' ∧ Line.IsSolid 'Y' := by
    decide
  cases mode with
  | single => exact nofun
  | relative =>
    simp only [operandText, List.forall_mem_cons, hmarks, iff_true_intro htarget, and_self]
  | _ =>
    simp only [operandText, List.forall_mem_cons, List.forall_mem_append, hmarks,
      iff_true_intro hdigits, List.not_mem_nil, false_implies, implies_true, and_self]

theorem parse?_text (e : Encoded) (pc : Nat) :
    Line.parse? (e.text pc) = some ⟨none, .instruction e.instruction.mnemonic.name.toList
      (operandText pc e.operand e.instruction.mode)⟩ := by
  have hc := e.instruction.mnemonic.capitals_name
  have hp := Line.parse?_join e.instruction.mnemonic.isWordChar_name
    e.instruction.mnemonic.name_ne_nil (isSolid_operandText pc e.operand e.instruction.mode)
  rw [hc] at hp
  exact hp e.instruction.mnemonic.name_ne_bytesWord

theorem line_text (pass : Pass) (number : Nat) (symbols : SymbolTable) (hr : e.InReach pc)
    (hfit : pc + e.bytes.length ≤ 0x10000) :
    pass.line number pc symbols (e.text pc) = .ok (symbols, .bytes e.bytes) := by
  have hpc : pc ≤ 0xFFFF := by
    rw [bytes, List.length_cons] at hfit
    omega
  have hsite : (Site.mk (UInt16.ofNat pc) pass symbols).pc.toNat = pc := by
    rw [UInt16.toNat_ofNat', Nat.mod_eq_of_lt (by omega)]
  refine Pass.line_eq_ok_iff.2 (.inr ⟨_, e.parse?_text pc, by cases pass <;> rfl, ?_⟩)
  simp only [Statement.effect, Statement.instruct, Mnemonic.ofName?_name, if_pos hpc,
    e.encode_operandText hsite hr, Except.map_ok, Except.ok_bind, Effect.fit, if_pos hfit,
    Pass.excuse_ok]

def image (es : List Encoded) : List UInt8 := es.flatMap bytes

def listing : Nat → List Encoded → List Text
  | _, [] => []
  | pc, e :: es => e.text pc :: listing (pc + e.bytes.length) es

def source (pc : Nat) (es : List Encoded) : Text := List.intercalate ['\n'] (listing pc es)

/-- The branches among instructions in a row lead into memory. -/
def AllInReach : Nat → List Encoded → Prop
  | _, [] => True
  | pc, e :: es => e.InReach pc ∧ AllInReach (pc + e.bytes.length) es

theorem lines_source (pc : Nat) (es : List Encoded) : (source pc es).lines = listing pc es := by
  apply Text.lines_intercalate
  induction es generalizing pc with
  | nil => exact nofun
  | cons e es ih =>
    refine List.forall_mem_cons.2 ⟨⟨Line.join_ne_nil (Mnemonic.name_ne_nil _), ?_⟩, ih _⟩
    intro c hc
    have hsolid : c = ' ' ∨ Line.IsSolid c := by
      obtain h | rfl | h := Line.mem_join hc
      · exact .inr (Line.isSolid_of_isWordChar (Mnemonic.isWordChar_name _ c h))
      · exact .inl rfl
      · exact .inr (isSolid_operandText _ _ _ c h)
    obtain rfl | h := hsolid
    · decide
    · constructor <;> rintro rfl <;> exact absurd h (by decide)

theorem walk_listing (pass : Pass) (number : Nat) (symbols : SymbolTable)
    (hr : AllInReach pc es) (hfit : pc + (image es).length ≤ 0x10000) :
    pass.walk number pc symbols (listing pc es) =
      ⟨symbols, Effect.place pc (image es), .ok (pc + (image es).length)⟩ := by
  induction es generalizing number pc with
  | nil => rfl
  | cons e es ih =>
    have himage : image (e :: es) = e.bytes ++ image es := List.flatMap_cons
    rw [himage, List.length_append] at hfit ⊢
    have hline := line_text pass number symbols hr.1 (show pc + e.bytes.length ≤ _ by omega)
    rw [listing, Pass.walk_cons_ok hline, Effect.next, ih _ hr.2 (by omega), Effect.place_append,
      Nat.add_assoc]
    rfl

end Encoded

namespace Assembler

open Encoded

variable {a : Assembler} {es : List Encoded}

section

variable (hfit : a.origin.toNat + (image es).length ≤ 0x10000)
  (hr : AllInReach a.origin.toNat es)

include hfit hr

theorem indexWalk_source : a.indexWalk (source a.origin.toNat es) =
    ⟨.empty, Effect.place a.origin.toNat (image es), .ok (a.origin.toNat + (image es).length)⟩ := by
  rw [indexWalk, lines_source, walk_listing .index 1 .empty hr hfit]

theorem commitWalk_source : a.commitWalk (source a.origin.toNat es) =
    ⟨.empty, Effect.place a.origin.toNat (image es), .ok (a.origin.toNat + (image es).length)⟩ := by
  rw [commitWalk, indexWalk_source hfit hr, lines_source, walk_listing .commit 1 .empty hr hfit]

end

theorem image_ne_nil (hne : es ≠ []) : image es ≠ [] := by
  cases es with
  | nil => exact absurd rfl hne
  | cons e es => exact List.cons_ne_nil _ _

/-- Assembling the listing of a program at its origin writes the bytes of the program there, and
changes no other byte. -/
theorem assemble_listing (hne : es ≠ []) (hfit : a.origin.toNat + (image es).length ≤ 0x10000)
    (hr : AllInReach a.origin.toNat es) (m : Memory) :
    let assembly := a.assemble (source a.origin.toNat es) m
    assembly.result = .ok (image es).length ∧ assembly.memory = m.load a.origin (image es) ∧
      ∀ b, assembly.memory.peek b =
        if a.origin ≤ b then (image es).getD (b.toNat - a.origin.toNat) (m.peek b)
        else m.peek b := by
  have hindex := indexWalk_source hfit hr
  have hcommit := commitWalk_source hfit hr
  have hlength :
      (a.commitWalk (source a.origin.toNat es)).writes.length = (image es).length := by
    rw [hcommit]
    exact Effect.length_place _ _
  have hwrites : (a.commitWalk (source a.origin.toNat es)).writes ≠ [] := by
    intro h
    rw [h] at hlength
    exact image_ne_nil hne (List.length_eq_zero_iff.1 hlength.symm)
  have hmemory : (a.assemble (source a.origin.toNat es) m).memory = m.load a.origin (image es) := by
    rw [memory_assemble, hindex, hcommit]
    exact (Memory.writeAll_place m _ _).trans (by rw [UInt16.ofNat_toNat])
  refine ⟨?_, hmemory, fun b ↦ ?_⟩
  · exact assemble_ok_iff.2 ⟨_, _, congrArg _ hindex, congrArg _ hcommit, hwrites, hlength⟩
  · rw [hmemory]
    exact Memory.peek_load hfit m b

def countdown : List Encoded :=
  [⟨⟨.ldx, .immediate⟩, 0xA2, [3], by decide +kernel, rfl⟩,
    ⟨⟨.dex, .single⟩, 0xCA, [], by decide +kernel, rfl⟩,
    ⟨⟨.bne, .relative⟩, 0xD0, [0xFD], by decide +kernel, rfl⟩]

theorem assemble_listing_countdown :
    source standard.origin.toNat countdown = "LDX #$03\nDEX\nBNE $0602".toList ∧
      (standard.assemble (source standard.origin.toNat countdown) .blank).result = .ok 5 ∧
      (standard.assemble (source standard.origin.toNat countdown) .blank).memory.peek 0x0604 =
        0xFD := by
  have h := assemble_listing (a := standard) (show countdown ≠ [] from nofun) (by decide)
    ⟨nofun, nofun, fun _ ↦ List.forall_mem_singleton.2 (by decide), trivial⟩ .blank
  exact ⟨by decide +kernel, h.1, (h.2.2 0x0604).trans (by decide)⟩

end Assembler

end Micro6502
