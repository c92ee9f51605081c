import Micro6502.Proofs.Encoding
import Micro6502.Proofs.ProgramCounter

namespace Micro6502

theorem Site.decode_encode {site : Site} {m : Mnemonic} {text : Text} {bs : List UInt8}
    (h : site.encode m text = .ok bs) :
    ∃ mode opcode operand, bs = opcode :: operand ∧ m.mode? text = some mode ∧
      Instruction.decode opcode = some ⟨m, mode⟩ ∧ bs.length = mode.instructionSize := by
  obtain ⟨r, opcode, operand, hr, hopcode, -, rfl⟩ := encode_eq_ok_iff.1 h
  obtain ⟨rfl, -, -⟩ := Mnemonic.read?_some hr
  refine ⟨r.mode, opcode, operand, rfl, ?_, hopcode, length_encode hr h⟩
  rw [Mnemonic.mode?, hr, Option.map_some]

theorem Instruction.diverts_eq_false {s : Processor} {m : Mnemonic}
    (hj : m ∉ [Mnemonic.jmp, .jsr, .rts, .rti, .brk])
    (hb : ∀ f taken, m.condition? = some (f, taken) → s.flag f ≠ taken) :
    m.operation.diverts s = false := by
  cases ho : m.operation with
  | branch f taken => exact decide_eq_false (hb f taken (Mnemonic.operation_eq_branch_iff.1 ho))
  | jump | call | returnFromCall | returnFromInterrupt | brk =>
    cases m <;> first | exact absurd hj (by decide) | cases ho
  | _ => rfl

/-- What the assembler encodes, the processor decodes, to the mode that the operand text selects and
with as many bytes as that mode has. And from any instruction that does not divert it, the processor
goes on behind these bytes, whatever the state. Only the opcode itself must be free of a read
hook. -/
theorem instruction_sizes_agree :
    (∀ (site : Site) (m : Mnemonic) (text : Text) (bs : List UInt8), site.encode m text = .ok bs →
      ∃ mode opcode operand, bs = opcode :: operand ∧ m.mode? text = some mode ∧
        Instruction.decode opcode = some ⟨m, mode⟩ ∧ bs.length = mode.instructionSize) ∧
    ∀ (s : Processor) (m : Memory) (i : Instruction),
      (∀ h ∈ m.readHook, h.range.contains s.pc = false) →
      Instruction.decode (m.peek s.pc) = some i →
      i.mnemonic ∉ [Mnemonic.jmp, .jsr, .rts, .rti, .brk] →
      (∀ f taken, i.mnemonic.condition? = some (f, taken) → s.flag f ≠ taken) →
      (s.step m).2.1.pc = s.pc + UInt16.ofNat i.mode.instructionSize := by
  refine ⟨fun site m text bs h ↦ Site.decode_encode h, ?_⟩
  intro s m i hh hd hj hb
  apply Processor.pc_step_sequential
  · rw [Memory.read_of_unhooked hh]
    exact hd
  · exact Instruction.diverts_eq_false hj hb

theorem instruction_sizes_agree_at_ends :
    (∃ mode opcode operand, [0xBD, 0x34, 0x12] = opcode :: operand ∧
      Mnemonic.lda.mode? "later,x".toList = some mode ∧
      Instruction.decode opcode = some ⟨.lda, mode⟩ ∧ 3 = mode.instructionSize) ∧
    ((Processor.initial 0xFFFF).step (Memory.blank.write 0xFFFF 0xAD)).2.1.pc = 2 := by
  have hread : (Memory.blank.write 0xFFFF 0xAD).readHook = none := rfl
  have hpeek : (Memory.blank.write 0xFFFF 0xAD).peek 0xFFFF = 0xAD := by
    rw [Memory.peek_write, if_pos rfl]
  constructor
  · exact instruction_sizes_agree.1 ⟨0x0600, .index, .empty⟩ .lda
      "later,x".toList _ rfl
  · refine (instruction_sizes_agree.2 (.initial 0xFFFF) _ ⟨.lda, .absolute⟩ ?_ ?_ ?_ ?_).trans ?_
    · intro h hh
      rw [hread] at hh
      cases hh
    · exact (congrArg Instruction.decode hpeek).trans (by decide +kernel)
    · decide
    · intro f taken ho
      cases ho
    · decide

end Micro6502
