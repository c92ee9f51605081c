import Micro6502.Proofs.EncodingErrors
import Micro6502.Proofs.InstructionStep

namespace Micro6502

namespace Mnemonic

variable {m : Mnemonic} {f : Flag} {taken : Bool}

theorem supports_relative_iff : m.supports .relative = true ↔
    ∃ f taken, m.condition? = some (f, taken) := by
  cases m with
  | bcc | bcs | bne | beq | bpl | bmi | bvc | bvs => exact ⟨fun _ ↦ ⟨_, _, rfl⟩, fun _ ↦ rfl⟩
  | _ => exact ⟨nofun, nofun⟩

theorem ne_brk_of_condition? (h : m.condition? = some (f, taken)) : m ≠ .brk := by
  rintro rfl
  cases h

theorem selects_relative {t : Text} {o : Operand} (h : m.supports .relative = true)
    (ho : AddressingMode.relative.pattern t o) : m.Selects t .relative o := by
  refine ⟨mode?_eq_some_iff.2 ⟨⟨h, o, ho⟩, fun mode hp htakes ↦ ?_⟩, ho⟩
  have hne : mode ≠ .relative := fun heq ↦ absurd hp (heq ▸ Nat.lt_irrefl _)
  obtain ⟨opcode, ho⟩ := Option.isSome_iff_exists.1 h
  have hnone : (m.opcode? mode).isSome = true := htakes.supports
  rw [opcode?_of_relative ho hne] at hnone
  cases hnone

theorem Selects.encode_index {t : Text} {o : Operand} (h : m.Selects t .relative o) (pc : UInt16)
    (s : SymbolTable) :
    ∃ opcode offset, (Site.mk pc .index s).encode m t = .ok [opcode, offset] := by
  obtain ⟨bs, hbs⟩ : ∃ bs, (Site.mk pc .index s).encode m t = .ok bs := by
    refine Site.exists_encode_iff.2 fun e he ↦ ?_
    cases he with
    | operand hm => cases hm.symm.trans h.chosen
    | value mode ds v ho =>
      obtain rfl : mode = .relative := Option.some.inj (ho.chosen.symm.trans h.chosen)
      obtain ⟨ds', -, -, hds⟩ | ⟨-, hds⟩ := ho.taken
      · cases hds
      · cases hds
    | label mode name hp => cases hp
    | branch o target hp => cases hp
  obtain ⟨r, hr, hmode⟩ := Option.map_eq_some_iff.1 h.chosen
  have hlength : bs.length = 2 := by rw [Site.length_encode hr hbs, hmode]; rfl
  obtain ⟨opcode, offset, rfl⟩ := List.length_eq_two.1 hlength
  exact ⟨opcode, offset, hbs⟩

end Mnemonic

theorem toNat_ofInt_byte {d : Int} (hlo : -128 ≤ d) (hhi : d ≤ 127) :
    ((UInt8.ofInt d).toNat : Int) = if 0 ≤ d then d else d + 256 := by
  rw [UInt8.ofInt, UInt8.toNat_ofNat']
  split
  · omega
  · omega

theorem branchTarget_ofInt {pc target : UInt16} {d : Int}
    (hd : d = (target.toNat : Int) - (pc.toNat + 2)) (hlo : -128 ≤ d) (hhi : d ≤ 127) :
    branchTarget (pc + 2) (UInt8.ofInt d) = target := by
  have hoffset := toNat_ofInt_byte hlo hhi
  have hpc := pc.toNat_lt
  have htarget := target.toNat_lt
  have hword := (UInt8.ofInt d).toNat_toUInt16
  have hlt : UInt8.ofInt d < 0x80 ↔ (UInt8.ofInt d).toNat < 128 := UInt8.lt_iff_toNat_lt
  apply UInt16.toNat_inj.1
  unfold branchTarget
  split
  · rename_i h
    rw [hlt] at h
    rw [UInt16.toNat_add, UInt16.toNat_add, hword]
    split at hoffset
    · simp only [UInt16.reduceToNat]
      omega
    · omega
  · rename_i h
    rw [hlt] at h
    rw [UInt16.toNat_sub, UInt16.toNat_add, UInt16.toNat_sub, hword]
    split at hoffset
    · omega
    · simp only [UInt16.reduceToNat]
      omega

namespace Site

variable {site : Site} {target : UInt16} {offset : UInt8}

theorem branchTarget_of_branchOffset (hp : site.pass = .commit)
    (h : site.branchOffset target = .ok offset) : branchTarget (site.pc + 2) offset = target := by
  obtain ⟨hd, rfl⟩ := (branchOffset_commit_eq_ok_iff hp).1 h
  refine branchTarget_ofInt ?_ hd.1 hd.2
  rw [displacement, Int.natCast_add]
  rfl

end Site

namespace Processor

variable {s : Processor} {m : Memory} {n : Mnemonic} {f : Flag} {taken : Bool}

/-- A branch reads its two bytes and moves the program counter, and that is all. -/
theorem step_branch (hn : n.condition? = some (f, taken)) (h₀ : m.Unhooked s.pc)
    (h₁ : m.Unhooked (s.pc + 1)) (hd : Instruction.decode (m.peek s.pc) = some ⟨n, .relative⟩) :
    (s.step m).2 = ({ s with
      pc := if s.flag f = taken then branchTarget (s.pc + 2) (m.peek (s.pc + 1)) else s.pc + 2
      fault := none }, m) := by
  have hread := Memory.read_of_unhooked h₀
  have hread' : m.read s.fetched.pc = (m.peek (s.pc + 1), m) := Memory.read_of_unhooked h₁
  have hnext : s.fetched.pc + 1 = s.pc + 2 := UInt16.add_assoc _ _ _
  have hflag : s.fetched.flag f = s.flag f := rfl
  have hdecode : Instruction.decode (m.read s.pc).1 = some ⟨n, .relative⟩ := by rw [hread, hd]
  have hbrk : n ≠ .brk := Mnemonic.ne_brk_of_condition? hn
  rw [step_of_some hdecode hbrk, Mnemonic.operation_eq_branch_iff.2 hn, perform, hread, run_branch,
    hread', hnext, hflag]
  by_cases hf : s.flag f = taken
  · simp only [if_pos hf]
    rfl
  · simp only [if_neg hf]
    rfl

end Processor

/-- What becomes of a branch at an address to a target, given as a number or as a label. -/
structure Mnemonic.Aims (m : Mnemonic) (f : Flag) (taken : Bool) (t : Text) (s : SymbolTable)
    (pc target : UInt16) : Prop where
  commit_iff : (∃ bs, (Site.mk pc .commit s).encode m t = .ok bs) ↔ Site.Reaches pc target
  commit_error : ¬ Site.Reaches pc target →
    (Site.mk pc .commit s).encode m t = .error (.branchOutOfRange target)
  index : ∀ pc' s', ∃ opcode offset, (Site.mk pc' .index s').encode m t = .ok [opcode, offset]
  lands : ∀ bs, (Site.mk pc .commit s).encode m t = .ok bs →
    ∃ opcode offset, bs = [opcode, offset] ∧
      ∀ (p : Processor) (mem : Memory), p.pc = pc → mem.Unhooked pc → mem.Unhooked (pc + 1) →
        mem.peek pc = opcode → mem.peek (pc + 1) = offset →
        (p.step mem).2 =
          ({ p with pc := if p.flag f = taken then target else pc + 2, fault := none }, mem)

namespace Mnemonic

variable {m : Mnemonic} {f : Flag} {taken : Bool} {t : Text} {o : Operand} {s : SymbolTable}
  {pc target : UInt16}

/-- A branch is encoded if its target is within reach, as two bytes that lead the processor to the
target if the flag has the value of the branch, and else behind them. Nothing else changes. -/
theorem aims_at_target (hm : m.condition? = some (f, taken))
    (ho : AddressingMode.relative.pattern t o) (ht : s.Locates o target) :
    m.Aims f taken t s pc target := by
  have hselects : m.Selects t .relative o :=
    selects_relative (supports_relative_iff.2 ⟨f, taken, hm⟩) ho
  obtain ⟨opcode, hopcode, hencode⟩ := hselects.encode_eq
  have hbytes : (Site.mk pc .commit s).operandBytes .relative o =
      ((Site.mk pc .commit s).branchOffset target).map ([·]) := Site.operandBytes_relative ho ht
  have hok (bs : List UInt8) : (Site.mk pc .commit s).encode m t = .ok bs ↔
      ∃ offset, (Site.mk pc .commit s).branchOffset target = .ok offset ∧
        [opcode, offset] = bs := by
    simp only [hencode, hbytes, Except.map_eq_ok_iff, exists_exists_and_eq_and]
  constructor
  case commit_iff =>
    constructor
    · rintro ⟨bs, hbs⟩
      obtain ⟨offset, hoffset, -⟩ := (hok bs).1 hbs
      exact Site.reaches_iff.2 ((Site.branchOffset_commit_eq_ok_iff rfl).1 hoffset).1
    · intro hreach
      exact ⟨_, (hok _).2 ⟨_, Site.branchOffset_of_reach (Site.reaches_iff.1 hreach), rfl⟩⟩
  case commit_error =>
    intro hreach
    apply hselects.encode_eq_error_iff.2
    exact (Site.operandBytes_relative_eq_error_iff ho ht).2 ⟨rfl, hreach, rfl⟩
  case index => exact fun pc' s' ↦ hselects.encode_index pc' s'
  case lands =>
    intro bs hbs
    obtain ⟨offset, hoffset, rfl⟩ := (hok bs).1 hbs
    refine ⟨opcode, offset, rfl, ?_⟩
    rintro p mem rfl h₀ h₁ hp₀ hp₁
    have hdecode : Instruction.decode (mem.peek p.pc) = some ⟨m, .relative⟩ := by
      rw [hp₀]
      exact Instruction.decode_eq_some_iff.2 hopcode
    rw [Processor.step_branch hm h₀ h₁ hdecode, hp₁, Site.branchTarget_of_branchOffset rfl hoffset]

theorem aims_at_target_from_end :
    bne.condition? = some (.zero, false) ∧
      AddressingMode.relative.pattern ['l'] (.label ['l']) ∧
      (SymbolTable.mk [⟨['l'], 0xFF80, 1⟩]).Locates (.label ['l']) 0xFF80 ∧
      bne.Aims .zero false ['l'] ⟨[⟨['l'], 0xFF80, 1⟩]⟩ 0xFFFE 0xFF80 := by
  have hword : Pattern.Word ['l'] :=
    ⟨nofun, List.forall_mem_singleton.2 (.inr (.inr (.inl (by decide))))⟩
  have hpattern : AddressingMode.relative.pattern ['l'] (.label ['l']) := .inr ⟨hword, rfl⟩
  have hlocates : (SymbolTable.mk [⟨['l'], 0xFF80, 1⟩]).Locates (.label ['l']) 0xFF80 :=
    .label _ _ rfl
  exact ⟨rfl, hpattern, hlocates, aims_at_target rfl hpattern hlocates⟩

end Mnemonic

end Micro6502
