import Micro6502.AddressingMode
import Micro6502.Mnemonic

namespace Micro6502

structure Instruction where
  mnemonic : Mnemonic
  mode : AddressingMode
  deriving DecidableEq, Repr

namespace Mnemonic

open AddressingMode

def encodings : Mnemonic → List (AddressingMode × UInt8)
  | .adc =>
    [(immediate, 0x69), (zeroPage, 0x65), (zeroPageX, 0x75), (absolute, 0x6D), (absoluteX, 0x7D),
      (absoluteY, 0x79), (indirectX, 0x61), (indirectY, 0x71)]
  | .and =>
    [(immediate, 0x29), (zeroPage, 0x25), (zeroPageX, 0x35), (absolute, 0x2D), (absoluteX, 0x3D),
      (absoluteY, 0x39), (indirectX, 0x21), (indirectY, 0x31)]
  | .asl =>
    [(zeroPage, 0x06), (zeroPageX, 0x16), (absolute, 0x0E), (absoluteX, 0x1E), (single, 0x0A)]
  | .bcc => [(relative, 0x90)]
  | .bcs => [(relative, 0xB0)]
  | .beq => [(relative, 0xF0)]
  | .bit => [(zeroPage, 0x24), (absolute, 0x2C)]
  | .bmi => [(relative, 0x30)]
  | .bne => [(relative, 0xD0)]
  | .bpl => [(relative, 0x10)]
  | .brk => [(single, 0x00)]
  | .bvc => [(relative, 0x50)]
  | .bvs => [(relative, 0x70)]
  | .clc => [(single, 0x18)]
  | .cld => [(single, 0xD8)]
  | .cli => [(single, 0x58)]
  | .clv => [(single, 0xB8)]
  | .cmp =>
    [(immediate, 0xC9), (zeroPage, 0xC5), (zeroPageX, 0xD5), (absolute, 0xCD), (absoluteX, 0xDD),
      (absoluteY, 0xD9), (indirectX, 0xC1), (indirectY, 0xD1)]
  | .cpx => [(immediate, 0xE0), (zeroPage, 0xE4), (absolute, 0xEC)]
  | .cpy => [(immediate, 0xC0), (zeroPage, 0xC4), (absolute, 0xCC)]
  | .dec => [(zeroPage, 0xC6), (zeroPageX, 0xD6), (absolute, 0xCE), (absoluteX, 0xDE)]
  | .dex => [(single, 0xCA)]
  | .dey => [(single, 0x88)]
  | .eor =>
    [(immediate, 0x49), (zeroPage, 0x45), (zeroPageX, 0x55), (absolute, 0x4D), (absoluteX, 0x5D),
      (absoluteY, 0x59), (indirectX, 0x41), (indirectY, 0x51)]
  | .inc => [(zeroPage, 0xE6), (zeroPageX, 0xF6), (absolute, 0xEE), (absoluteX, 0xFE)]
  | .inx => [(single, 0xE8)]
  | .iny => [(single, 0xC8)]
  | .jmp => [(absolute, 0x4C), (indirect, 0x6C)]
  | .jsr => [(absolute, 0x20)]
  | .lda =>
    [(immediate, 0xA9), (zeroPage, 0xA5), (zeroPageX, 0xB5), (absolute, 0xAD), (absoluteX, 0xBD),
      (absoluteY, 0xB9), (indirectX, 0xA1), (indirectY, 0xB1)]
  | .ldx =>
    [(immediate, 0xA2), (zeroPage, 0xA6), (zeroPageY, 0xB6), (absolute, 0xAE), (absoluteY, 0xBE)]
  | .ldy =>
    [(immediate, 0xA0), (zeroPage, 0xA4), (zeroPageX, 0xB4), (absolute, 0xAC), (absoluteX, 0xBC)]
  | .lsr =>
    [(zeroPage, 0x46), (zeroPageX, 0x56), (absolute, 0x4E), (absoluteX, 0x5E), (single, 0x4A)]
  | .nop => [(single, 0xEA)]
  | .ora =>
    [(immediate, 0x09), (zeroPage, 0x05), (zeroPageX, 0x15), (absolute, 0x0D), (absoluteX, 0x1D),
      (absoluteY, 0x19), (indirectX, 0x01), (indirectY, 0x11)]
  | .pha => [(single, 0x48)]
  | .php => [(single, 0x08)]
  | .pla => [(single, 0x68)]
  | .plp => [(single, 0x28)]
  | .rol =>
    [(zeroPage, 0x26), (zeroPageX, 0x36), (absolute, 0x2E), (absoluteX, 0x3E), (single, 0x2A)]
  | .ror =>
    [(zeroPage, 0x66), (zeroPageX, 0x76), (absolute, 0x6E), (absoluteX, 0x7E), (single, 0x6A)]
  | .rti => [(single, 0x40)]
  | .rts => [(single, 0x60)]
  | .sbc =>
    [(immediate, 0xE9), (zeroPage, 0xE5), (zeroPageX, 0xF5), (absolute, 0xED), (absoluteX, 0xFD),
      (absoluteY, 0xF9), (indirectX, 0xE1), (indirectY, 0xF1)]
  | .sec => [(single, 0x38)]
  | .sed => [(single, 0xF8)]
  | .sei => [(single, 0x78)]
  | .sta =>
    [(zeroPage, 0x85), (zeroPageX, 0x95), (absolute, 0x8D), (absoluteX, 0x9D), (absoluteY, 0x99),
      (indirectX, 0x81), (indirectY, 0x91)]
  | .stx => [(zeroPage, 0x86), (zeroPageY, 0x96), (absolute, 0x8E)]
  | .sty => [(zeroPage, 0x84), (zeroPageX, 0x94), (absolute, 0x8C)]
  | .tax => [(single, 0xAA)]
  | .tay => [(single, 0xA8)]
  | .tsx => [(single, 0xBA)]
  | .txa => [(single, 0x8A)]
  | .txs => [(single, 0x9A)]
  | .tya => [(single, 0x98)]

def opcode? (m : Mnemonic) (mode : AddressingMode) : Option UInt8 := m.encodings.lookup mode

def supports (m : Mnemonic) (mode : AddressingMode) : Bool := (m.opcode? mode).isSome

end Mnemonic

namespace Instruction

def opcodes : List (UInt8 × Instruction) :=
  Mnemonic.all.flatMap fun m ↦ m.encodings.map fun (mode, opcode) ↦ (opcode, ⟨m, mode⟩)

def decodeTable : Vector (Option Instruction) 256 :=
  Vector.ofFn fun opcode ↦ opcodes.lookup (UInt8.ofNat opcode.val)

/-- The instruction that an opcode byte stands for, or nothing if it is undocumented. -/
def decode (opcode : UInt8) : Option Instruction :=
  have := opcode.toNat_lt
  decodeTable[opcode.toNat]

theorem decode_eq_lookup (opcode : UInt8) : decode opcode = opcodes.lookup opcode := by
  simp [decode, decodeTable]

theorem mem_of_lookup_eq_some {α β : Type} [BEq α] [LawfulBEq α] {a : α} {b : β}
    {l : List (α × β)} (h : l.lookup a = some b) : (a, b) ∈ l := by
  obtain ⟨l₁, l₂, rfl, -⟩ := List.lookup_eq_some_iff.1 h
  simp

theorem lookup_opcodes : ∀ p ∈ opcodes, opcodes.lookup p.1 = some p.2 := by
  decide +kernel

theorem opcode?_opcodes : ∀ p ∈ opcodes, p.2.mnemonic.opcode? p.2.mode = some p.1 := by
  decide +kernel

theorem mem_opcodes {m : Mnemonic} {mode : AddressingMode} {opcode : UInt8}
    (h : m.opcode? mode = some opcode) : (opcode, ⟨m, mode⟩) ∈ opcodes :=
  List.mem_flatMap.2 ⟨m, m.mem_all, List.mem_map.2 ⟨_, mem_of_lookup_eq_some h, rfl⟩⟩

theorem decode_eq_some_iff {opcode : UInt8} {i : Instruction} :
    decode opcode = some i ↔ i.mnemonic.opcode? i.mode = some opcode := by
  rw [decode_eq_lookup]
  exact ⟨fun h ↦ opcode?_opcodes _ (mem_of_lookup_eq_some h),
    fun h ↦ lookup_opcodes _ (mem_opcodes h)⟩

theorem decode_inj {opcode opcode' : UInt8} {i : Instruction} (h : decode opcode = some i)
    (h' : decode opcode' = some i) : opcode = opcode' :=
  Option.some.inj ((decode_eq_some_iff.1 h).symm.trans (decode_eq_some_iff.1 h'))

end Instruction

end Micro6502
