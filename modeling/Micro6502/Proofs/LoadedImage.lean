import Micro6502.Machine
import Micro6502.Proofs.Layout

namespace Micro6502

namespace Machine

def emitted (m : Machine) (source : Text) : List Write := (m.assembler.commitWalk source).writes

/-- Every address that the commit pass writes holds the byte that it writes there last. -/
def KeepsImage (m : Machine) (source : Text) : Prop :=
  ∀ a v, latest? (m.emitted source) a = some v → (m.assemble source).2.memory.peek a = v

variable {m : Machine} {source : Text} {n : Nat}

theorem result_assemble : (m.assemble source).1 =
    (m.assembler.assemble source m.memory.resetNotifying).result := by
  rw [assemble]
  split
  · rename_i h
    exact h.symm
  · rename_i h
    exact h.symm

theorem memory_assemble (h : (m.assemble source).1 = .ok n) :
    ∃ pc, (m.assembler.commitWalk source).counter = .ok pc ∧
      (m.assemble source).2.memory =
        (m.memory.resetNotifying.writeAll (m.emitted source)).write (UInt16.ofNat pc) 0 := by
  rw [result_assemble] at h
  obtain ⟨_, pc, hi, hc, -, -⟩ := Assembler.assemble_ok_iff.1 h
  obtain ⟨hmemory, hassembler⟩ := Assembler.assemble_ok (m := m.memory.resetNotifying) hi hc
  have hassemble : (m.assemble source).2.memory =
      (m.assembler.assemble source m.memory.resetNotifying).memory.write
        (m.assembler.assemble source m.memory.resetNotifying).assembler.endAddress 0 := by
    rw [assemble]
    split
    · rename_i e he
      exact absurd (h.symm.trans he) nofun
    · rfl
  refine ⟨pc, hc, ?_⟩
  rw [hassemble, hmemory, hassembler]
  rfl

theorem peek_assemble (h : (m.assemble source).1 = .ok n) :
    ∃ pc, (m.assembler.commitWalk source).counter = .ok pc ∧
      ∀ a, (m.assemble source).2.memory.peek a =
        if UInt16.ofNat pc = a then 0 else (latest? (m.emitted source) a).getD 0 := by
  obtain ⟨pc, hc, hmemory⟩ := memory_assemble h
  refine ⟨pc, hc, fun a ↦ ?_⟩
  -- The reset before the assembly leaves nothing but zeros.
  rw [hmemory, Memory.peek_write, Memory.peek_writeAll, Memory.peek_resetNotifying]

theorem keepsImage_of_peek {pc : Nat}
    (hpeek : ∀ a, (m.assemble source).2.memory.peek a =
      if UInt16.ofNat pc = a then 0 else (latest? (m.emitted source) a).getD 0)
    (hzero : ∀ v, latest? (m.emitted source) (UInt16.ofNat pc) = some v → v = 0) :
    m.KeepsImage source := by
  intro a v hv
  rw [hpeek]
  split
  · rename_i ha
    exact (hzero v (ha ▸ hv)).symm
  · rw [hv, Option.getD_some]

/-- The image survives exactly if the byte that the program has at its end address, if it has one,
is the zero that is stored there. -/
theorem keepsImage_iff (h : (m.assemble source).1 = .ok n) :
    ∃ pc, (m.assembler.commitWalk source).counter = .ok pc ∧
      (m.KeepsImage source ↔
        ∀ v, latest? (m.emitted source) (UInt16.ofNat pc) = some v → v = 0) := by
  obtain ⟨pc, hc, hpeek⟩ := peek_assemble h
  refine ⟨pc, hc, ?_, keepsImage_of_peek hpeek⟩
  intro hkeeps v hv
  have hend := hkeeps _ v hv
  rw [hpeek, if_pos rfl] at hend
  exact hend.symm

theorem keepsImage_of_bytes {pc : Nat} (h : (m.assemble source).1 = .ok n)
    (hb : ∀ v ∈ Pass.commit.visits 1 m.assembler.origin.toNat
      (m.assembler.indexWalk source).symbols source.lines, ∃ bs, v.effect = .bytes bs)
    (hc : (m.assembler.commitWalk source).counter = .ok pc) (hpc : pc < 0x10000) :
    m.KeepsImage source := by
  obtain ⟨pc', hc', hpeek⟩ := peek_assemble h
  obtain rfl : pc = pc' := Except.ok.inj (hc.symm.trans hc')
  obtain ⟨bs, hwrites, rfl⟩ := Pass.walk_of_bytes hc hb
  refine keepsImage_of_peek hpeek fun v hv ↦ ?_
  have hemitted : m.emitted source = Effect.place m.assembler.origin.toNat bs := hwrites
  rw [hemitted, Effect.latest?_place (Nat.le_of_lt hpc), UInt16.toNat_ofNat',
    Nat.mod_eq_of_lt hpc, if_pos (Nat.le_add_right _ _), Nat.add_sub_cancel_left,
    List.getElem?_eq_none (Nat.le_refl _)] at hv
  cases hv

def rewound : Text := "NOP\n* = $0600".toList

theorem assemble_rewound : ((plain {}).assemble rewound).1 = .ok 1 := by
  decide +kernel

theorem keepsImage_iff_rewound :
    ((plain {}).assemble rewound).1 = .ok 1 ∧
      ∃ pc, ((plain {}).assembler.commitWalk rewound).counter = .ok pc ∧
        ((plain {}).KeepsImage rewound ↔
          ∀ v, latest? ((plain {}).emitted rewound) (UInt16.ofNat pc) = some v → v = 0) :=
  ⟨assemble_rewound, keepsImage_iff assemble_rewound⟩

/-- The terminator takes the place of the only byte of the program. -/
theorem not_keepsImage_rewound :
    ((plain {}).assemble rewound).1 = .ok 1 ∧ ¬ (plain {}).KeepsImage rewound := by
  refine ⟨assemble_rewound, fun hkeeps ↦ ?_⟩
  have hbyte : latest? ((plain {}).emitted rewound) 0x0600 = some 0xEA := by
    decide +kernel
  have hcounter : ((plain {}).assembler.commitWalk rewound).counter = .ok 0x0600 := by
    rfl
  obtain ⟨pc, hc, hpeek⟩ := peek_assemble assemble_rewound
  obtain rfl : 0x0600 = pc := Except.ok.inj (hcounter.symm.trans hc)
  have hlost := hkeeps _ _ hbyte
  rw [hpeek, if_pos (by rfl)] at hlost
  exact absurd hlost (by decide)

end Machine

end Micro6502
