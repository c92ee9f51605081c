import Micro6502.Proofs.DumpText
import Micro6502.Proofs.History
import Micro6502.Proofs.LoadedImage

namespace Micro6502.Machine

/-- The listing right after an assembly shows every byte that the program has in memory. -/
def ListsProgram (m : Machine) (source : Text) (ascii : Bool) : Prop :=
  ∀ w ∈ m.emitted source, Shows ((m.assemble source).2.hexDump ascii) w.1
    ((m.assemble source).2.memory.peek w.1)

variable {m : Machine} {source : Text} {ascii : Bool} {n : Nat} {a : UInt16}

theorem assembler_assemble (m : Machine) (source : Text) : (m.assemble source).2.assembler =
    (m.assembler.assemble source m.memory.resetNotifying).assembler := by
  rw [assemble_eq]
  rfl

theorem hexDump_assemble (h : (m.assemble source).1 = .ok n) :
    (m.assemble source).2.hexDump ascii =
      (m.assemble source).2.memory.hexDump m.assembler.origin n ascii := by
  rw [result_assemble] at h
  obtain ⟨_, pc, hi, hc, -, hlength⟩ := Assembler.assemble_ok_iff.1 h
  obtain ⟨-, hassembler⟩ := Assembler.assemble_ok (m := m.memory.resetNotifying) hi hc
  rw [hexDump, assembler_assemble, hassembler, hlength]

theorem shows_hexDump_assemble_iff (h : (m.assemble source).1 = .ok n) :
    Shows ((m.assemble source).2.hexDump ascii) a ((m.assemble source).2.memory.peek a) ↔
      m.assembler.origin.toNat ≤ a.toNat ∧ a.toNat < m.assembler.origin.toNat + n := by
  rw [hexDump_assemble h, Memory.shows_hexDump_iff]
  exact and_congr_right fun _ ↦ and_iff_left rfl

/-- The listing is complete exactly if every byte of the program lies behind the origin, by less
than the number of bytes. -/
theorem listsProgram_iff (h : (m.assemble source).1 = .ok n) : m.ListsProgram source ascii ↔
    ∀ w ∈ m.emitted source, m.assembler.origin.toNat ≤ w.1.toNat ∧
      w.1.toNat < m.assembler.origin.toNat + n :=
  forall₂_congr fun _ _ ↦ shows_hexDump_assemble_iff h

theorem listsProgram_of_no_relocation (h : (m.assemble source).1 = .ok n)
    (hr : ∀ text ∈ source.lines, ∀ l target, Line.parse? text = some l →
      l.statement ≠ .relocate target) : m.ListsProgram source ascii := by
  intro w hw
  have hresult := h
  rw [result_assemble] at hresult
  obtain ⟨_, pc, hi, hc, -, rfl⟩ := Assembler.assemble_ok_iff.1 hresult
  obtain ⟨haddresses, -⟩ := Assembler.addresses_of_no_relocation hc hr
  have hmem : w.1.toNat ∈ (m.assembler.commitWalk source).writes.map fun w ↦ w.1.toNat :=
    List.mem_map_of_mem hw
  rw [haddresses, List.mem_range'_1] at hmem
  exact (shows_hexDump_assemble_iff h).2 hmem

def moved : Text := "* = $0700\nNOP".toList

theorem assemble_moved_ok : ((plain {}).assemble moved).1 = .ok 1 := by
  decide +kernel

theorem listsProgram_iff_moved :
    ((plain {}).assemble moved).1 = .ok 1 ∧
      ((plain {}).ListsProgram moved false ↔
        ∀ w ∈ (plain {}).emitted moved, (plain {}).assembler.origin.toNat ≤ w.1.toNat ∧
          w.1.toNat < (plain {}).assembler.origin.toNat + 1) :=
  ⟨assemble_moved_ok, listsProgram_iff assemble_moved_ok⟩

/-- The only byte of the program is not shown. -/
theorem not_listsProgram_moved :
    ((plain {}).assemble moved).1 = .ok 1 ∧ (0x0700, 0xEA) ∈ (plain {}).emitted moved ∧
      ¬ (plain {}).ListsProgram moved false := by
  have hbyte : (0x0700, 0xEA) ∈ (plain {}).emitted moved := by
    decide +kernel
  refine ⟨assemble_moved_ok, hbyte, fun h ↦ ?_⟩
  have hrange := (shows_hexDump_assemble_iff assemble_moved_ok).1 (h _ hbyte)
  exact absurd hrange.2 (by decide)

end Micro6502.Machine
