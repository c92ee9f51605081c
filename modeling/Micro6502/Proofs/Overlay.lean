import Micro6502.Assembly.Assembler

namespace Micro6502

/-- The byte that is written last to an address. -/
def latest? (ws : List Write) (a : UInt16) : Option UInt8 := ws.reverse.lookup a

theorem latest?_cons (w : Write) (ws : List Write) (a : UInt16) :
    latest? (w :: ws) a = (latest? ws a).or (if a = w.1 then some w.2 else none) := by
  rw [latest?, List.reverse_cons, List.lookup_append, List.lookup_cons, List.lookup_nil, latest?]
  by_cases h : a = w.1
  · rw [if_pos h, beq_iff_eq.2 h]
  · rw [if_neg h, beq_eq_false_iff_ne.2 h]

theorem latest?_eq_none {ws : List Write} {a : UInt16} (h : a ∉ ws.map Prod.fst) :
    latest? ws a = none := by
  induction ws with
  | nil => rfl
  | cons w ws ih =>
    rw [List.map_cons, List.mem_cons, not_or] at h
    rw [latest?_cons, ih h.2, if_neg h.1, Option.none_or]

namespace Effect

theorem length_place (pc : Nat) (bs : List UInt8) : (place pc bs).length = bs.length := by
  induction bs generalizing pc with
  | nil => rfl
  | cons b bs ih => rw [place, List.length_cons, ih, List.length_cons]

theorem place_append (pc : Nat) (bs cs : List UInt8) :
    place pc (bs ++ cs) = place pc bs ++ place (pc + bs.length) cs := by
  induction bs generalizing pc with
  | nil => rfl
  | cons b bs ih =>
    rw [List.cons_append, place, place, ih, List.cons_append, List.length_cons, Nat.add_right_comm,
      Nat.add_assoc]

theorem latest?_place {pc : Nat} {bs : List UInt8} (h : pc + bs.length ≤ 0x10000) (a : UInt16) :
    latest? (place pc bs) a = if pc ≤ a.toNat then bs[a.toNat - pc]? else none := by
  induction bs generalizing pc with
  | nil => simp [latest?, place]
  | cons b bs ih =>
    rw [List.length_cons] at h
    have ha : a = UInt16.ofNat pc ↔ a.toNat = pc := by
      rw [← UInt16.toNat_inj, UInt16.toNat_ofNat', Nat.mod_eq_of_lt (by omega)]
    have hne : a.toNat ≠ pc → a ≠ UInt16.ofNat pc := mt ha.1
    rw [place, latest?_cons, ih (by omega)]
    obtain hlt | rfl | hgt := Nat.lt_trichotomy a.toNat pc
    · rw [if_neg (by omega), if_neg (hne (Nat.ne_of_lt hlt)), if_neg (by omega), Option.none_or]
    · rw [if_neg (by omega), if_pos (ha.2 rfl), if_pos (by omega), Nat.sub_self, Option.none_or,
        List.getElem?_cons_zero]
    · obtain ⟨k, hk⟩ : ∃ k, a.toNat - pc = k + 1 := ⟨a.toNat - pc - 1, by omega⟩
      have hk' : a.toNat - (pc + 1) = k := by omega
      rw [if_pos (by omega), if_neg (hne (Nat.ne_of_gt hgt)), if_pos (by omega), hk, hk',
        Option.or_none, List.getElem?_cons_succ]

end Effect

namespace Memory

theorem peek_writeAll (m : Memory) (ws : List Write) (a : UInt16) :
    (m.writeAll ws).peek a = (latest? ws a).getD (m.peek a) := by
  induction ws generalizing m with
  | nil => rfl
  | cons w ws ih =>
    have h := ih (m.write w.1 w.2)
    rw [peek_write] at h
    rw [latest?_cons]
    refine h.trans ?_
    cases latest? ws a with
    | none => by_cases ha : a = w.1 <;> simp [ha, eq_comm]
    | some v => rfl

theorem writeAll_place (m : Memory) (pc : Nat) (bs : List UInt8) :
    m.writeAll (Effect.place pc bs) = m.load (UInt16.ofNat pc) bs := by
  induction bs generalizing m pc with
  | nil => rfl
  | cons b bs ih =>
    rw [load, ← UInt16.ofNat_one, ← UInt16.ofNat_add]
    exact ih (m.write (UInt16.ofNat pc) b) (pc + 1)

theorem peek_load {a : UInt16} {bs : List UInt8} (h : a.toNat + bs.length ≤ 0x10000) (m : Memory)
    (b : UInt16) : (m.load a bs).peek b =
      if a ≤ b then bs.getD (b.toNat - a.toNat) (m.peek b) else m.peek b := by
  have hp := peek_writeAll m (Effect.place a.toNat bs) b
  rw [writeAll_place, UInt16.ofNat_toNat, Effect.latest?_place h] at hp
  rw [hp]
  by_cases hab : a ≤ b
  · rw [if_pos hab, if_pos (UInt16.le_iff_toNat_le.1 hab), List.getD_eq_getElem?_getD]
  · rw [if_neg hab, if_neg (mt UInt16.le_iff_toNat_le.2 hab), Option.getD_none]

end Memory

end Micro6502
