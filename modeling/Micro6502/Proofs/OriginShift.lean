import Micro6502.Proofs.OperandNames

namespace Micro6502

structure Symbol.Moved (origin origin' : Nat) (s s' : Symbol) : Prop where
  name : s'.name = s.name
  line : s'.line = s.line
  address : s'.address.toNat + origin = s.address.toNat + origin'

namespace SymbolTable

def Moved (origin origin' : Nat) (t t' : SymbolTable) : Prop :=
  List.Forall₂ (Symbol.Moved origin origin') t.symbols t'.symbols

variable {o o' : Nat} {t t' : SymbolTable} {name : Text}

theorem Moved.address?_cases (h : t.Moved o o' t') (name : Text) :
    t.address? name = none ∧ t'.address? name = none ∨ ∃ a a', t.address? name = some a ∧
      t'.address? name = some a' ∧ a'.toNat + o = a.toNat + o' := by
  obtain ⟨symbols⟩ := t
  obtain ⟨symbols'⟩ := t'
  have hsymbols : List.Forall₂ (Symbol.Moved o o') symbols symbols' := h
  simp only [address?, find?]
  clear h
  induction hsymbols with
  | nil => exact .inl ⟨rfl, rfl⟩
  | @cons s s' rest rest' hs _ ih =>
    by_cases hn : s.name = name
    · rw [List.find?_cons_of_pos (by simp [hn]), List.find?_cons_of_pos (by simp [hs.name, hn])]
      exact .inr ⟨_, _, rfl, rfl, hs.address⟩
    · rw [List.find?_cons_of_neg (by simp [hn]), List.find?_cons_of_neg (by simp [hs.name, hn])]
      exact ih

theorem Moved.find?_eq_none (h : t.Moved o o' t') (hn : t.find? name = none) :
    t'.find? name = none := by
  obtain ⟨-, hn'⟩ | ⟨a, a', ha, -⟩ := h.address?_cases name
  · exact Option.map_eq_none_iff.1 hn'
  · rw [address?, hn] at ha
    cases ha

end SymbolTable

/-- The operand holds the address of a label that a table lists, or half of it, and not just the way
to it. -/
def Reading.Holds (r : Reading) (t : SymbolTable) (name : Text) (address : UInt16) : Prop :=
  r.mode ≠ .relative ∧ r.operand.name? = some name ∧ t.address? name = some address

/-- The operand bytes of an instruction before and after everything has moved. -/
structure Reading.Moves (o o' : Nat) (t t' : SymbolTable) (r : Reading) (bs cs : List UInt8) :
    Prop where
  same : (∀ name address, ¬ r.Holds t name address) → cs = bs
  field : ∀ name address, r.Holds t name address → bs = r.operand.field address ∧
    ∃ address', r.Holds t' name address' ∧ address'.toNat + o = address.toNat + o' ∧
      cs = r.operand.field address'

namespace Reading.Moves

variable {o o' : Nat} {t t' : SymbolTable} {r : Reading} {name : Text} {a a' : UInt16}
  {bs : List UInt8}

theorem refl_of_not_holds (h : ∀ name address, ¬ r.Holds t name address) :
    r.Moves o o' t t' bs bs :=
  ⟨fun _ ↦ rfl, fun name address hr ↦ absurd hr (h name address)⟩

theorem of_unnamed (h : r.operand.name? = none) : r.Moves o o' t t' bs bs :=
  refl_of_not_holds fun _ _ hr ↦ absurd (h.symm.trans hr.2.1) nofun

theorem of_relative (h : r.mode = .relative) : r.Moves o o' t t' bs bs :=
  refl_of_not_holds fun _ _ hr ↦ hr.1 h

theorem of_unknown (hname : r.operand.name? = some name) (h : t.address? name = none) :
    r.Moves o o' t t' bs bs := by
  refine refl_of_not_holds ?_
  rintro n a ⟨-, hn, ha⟩
  obtain rfl : name = n := Option.some.inj (hname.symm.trans hn)
  exact absurd (h.symm.trans ha) nofun

theorem of_holds (h : r.Holds t name a) (h' : r.Holds t' name a')
    (ha : a'.toNat + o = a.toNat + o') :
    r.Moves o o' t t' (r.operand.field a) (r.operand.field a') := by
  refine ⟨fun hnone ↦ absurd h (hnone name a), ?_⟩
  rintro n b ⟨-, hn, hb⟩
  obtain rfl : name = n := Option.some.inj (h.2.1.symm.trans hn)
  obtain rfl : a = b := Option.some.inj (h.2.2.symm.trans hb)
  exact ⟨rfl, a', h', ha, rfl⟩

end Reading.Moves

def BytesMoved (o o' : Nat) (t t' : SymbolTable) (reading? : Option Reading)
    (vs ws : List UInt8) : Prop :=
  reading? = none ∧ ws = vs ∨ ∃ r opcode bs cs, reading? = some r ∧
    Instruction.decode opcode = some r.toInstruction ∧ vs = opcode :: bs ∧ ws = opcode :: cs ∧
    r.Moves o o' t t' bs cs

namespace Site

variable {o o' : Nat} {pc pc' : UInt16} {t t' : SymbolTable} {r : Reading} {bs : List UInt8}

theorem branchOffset_moved {target target' : UInt16} (hpc : pc'.toNat + o = pc.toNat + o')
    (ht : target'.toNat + o = target.toNat + o') {b : UInt8}
    (h : (Site.mk pc .commit t).branchOffset target = .ok b) :
    (Site.mk pc' .commit t').branchOffset target' = .ok b := by
  have hd : (Site.mk pc' .commit t').displacement target' =
      (Site.mk pc .commit t).displacement target := by
    unfold displacement
    dsimp only
    omega
  rw [branchOffset_commit_eq_ok_iff rfl] at h ⊢
  rwa [hd]

theorem operandBytes_moved (ht : t.Moved o o' t') (hpc : pc'.toNat + o = pc.toNat + o')
    (hsuits : r.operand.Suits r.mode) (hbranch : r.mode = .relative → ∀ ds, r.operand ≠ .hex ds)
    (h : (Site.mk pc .commit t).operandBytes r.mode r.operand = .ok bs) :
    ∃ cs, (Site.mk pc' .commit t').operandBytes r.mode r.operand = .ok cs ∧
      r.Moves o o' t t' bs cs := by
  obtain ⟨⟨mnemonic, mode⟩, operand⟩ := r
  cases operand with
  | none => exact ⟨bs, h, .of_unnamed rfl⟩
  | decimal ds => exact ⟨bs, h, .of_unnamed rfl⟩
  | hex ds =>
    have hmode : mode ≠ .relative := fun hm ↦ hbranch hm ds rfl
    refine ⟨bs, ?_, .of_unnamed rfl⟩
    simp only [operandBytes, numberBytes, if_neg hmode] at h ⊢
    exact h
  | label name =>
    obtain ⟨x, hx, h⟩ := Except.bind_eq_ok_iff.1 h
    obtain ⟨hn, -⟩ | ⟨a, a', ha, ha', hmoved⟩ := ht.address?_cases name
    · simp only [resolve, hn] at hx
      cases hx
    · simp only [resolve, ha] at hx
      cases hx
      simp only [operandBytes, resolve, ha', Except.ok_bind]
      by_cases hm : mode = .relative
      · rw [if_pos hm] at h ⊢
        obtain ⟨b, hb, rfl⟩ := Except.map_eq_ok_iff.1 h
        exact ⟨[b], by rw [branchOffset_moved hpc hmoved hb, Except.map_ok], .of_relative hm⟩
      · rw [if_neg hm] at h ⊢
        cases h
        refine ⟨_, rfl, ?_⟩
        simp only [Option.getD_some, wordBytes_eq name]
        exact .of_holds ⟨hm, rfl, ha⟩ ⟨hm, rfl, ha'⟩ hmoved
  | lowByte name | highByte name =>
    have hm : mode ≠ .relative := by
      rintro rfl
      cases hsuits
    cases h
    obtain ⟨hn, hn'⟩ | ⟨a, a', ha, ha', hmoved⟩ := ht.address?_cases name
    · simp only [operandBytes, hn, hn']
      exact ⟨_, rfl, .of_unknown rfl hn⟩
    · simp only [operandBytes, ha, ha', Option.map_some, Option.getD_some, Word.low_eq,
        Word.high_eq]
      exact ⟨_, rfl, .of_holds ⟨hm, rfl, ha⟩ ⟨hm, rfl, ha'⟩ hmoved⟩

end Site

namespace Statement

/-- Neither moves the program counter nor branches to an address that is given as a number. -/
def movable (st : Statement) : Bool :=
  match st with
  | .relocate _ => false
  | st =>
    match st.reading? with
    | some ⟨⟨_, .relative⟩, .hex _⟩ => false
    | _ => true

variable {st : Statement} {o o' pc pc' : Nat} {t t' : SymbolTable} {vs : List UInt8}

theorem ne_relocate_of_movable (h : st.movable = true) (target : Text) : st ≠ .relocate target := by
  rintro rfl
  cases h

theorem ne_hex_of_movable {r : Reading} (h : st.movable = true) (hr : st.reading? = some r)
    (hm : r.mode = .relative) (ds : Text) : r.operand ≠ .hex ds := by
  intro ho
  obtain ⟨⟨mnemonic, mode⟩, operand⟩ := r
  cases hm
  cases ho
  cases st with
  | empty | relocate target | bytes list => cases hr
  | instruction name operand =>
    simp only [movable, hr] at h
    cases h

theorem ne_nil_of_instruction {pass : Pass} {name operand : Text}
    (h : (instruction name operand).effect pass t pc = .ok (.bytes vs)) : vs ≠ [] := by
  obtain ⟨bytes, hbytes, he⟩ := Except.map_eq_ok_iff.1 h
  cases he
  obtain ⟨m, -, -, hencode⟩ := instruct_eq_ok_iff.1 hbytes
  obtain ⟨r, opcode, bs, -, -, -, rfl⟩ := Site.encode_eq_ok_iff.1 hencode
  exact List.cons_ne_nil _ _

theorem effect_moved (ht : t.Moved o o' t') (hpc : pc' + o = pc + o') (hst : st.movable = true)
    (h : st.effect .commit t pc = .ok (.bytes vs)) (hfit : pc' + vs.length ≤ 0x10000) :
    ∃ ws, st.effect .commit t' pc' = .ok (.bytes ws) ∧ ws.length = vs.length ∧
      BytesMoved o o' t t' st.reading? vs ws := by
  cases st with
  | empty =>
    cases h
    exact ⟨[], rfl, rfl, .inl ⟨rfl, rfl⟩⟩
  | relocate target => cases hst
  | bytes list => exact ⟨vs, h, rfl, .inl ⟨rfl, rfl⟩⟩
  | instruction name operand =>
    obtain ⟨bytes, hbytes, he⟩ := Except.map_eq_ok_iff.1 h
    cases he
    obtain ⟨m, hm, hmem, hencode⟩ := instruct_eq_ok_iff.1 hbytes
    obtain ⟨r, opcode, bs, hr, ho, hbs, rfl⟩ := Site.encode_eq_ok_iff.1 hencode
    have hmem' : pc' ≤ 0xFFFF := by
      rw [List.length_cons] at hfit
      omega
    have hreading : (Statement.instruction name operand).reading? = some r := by
      rw [reading?, hm, Option.bind_some, hr]
    have hsite : (UInt16.ofNat pc').toNat + o = (UInt16.ofNat pc).toNat + o' := by
      have hnat : (UInt16.ofNat pc).toNat = pc :=
        UInt16.toNat_ofNat_of_lt (Nat.lt_succ_of_le hmem)
      have hnat' : (UInt16.ofNat pc').toNat = pc' :=
        UInt16.toNat_ofNat_of_lt (Nat.lt_succ_of_le hmem')
      rw [hnat, hnat']
      exact hpc
    have hsuits := Mnemonic.suits_of_read? hr
    obtain ⟨cs, hcs, hmoves⟩ := Site.operandBytes_moved ht hsite hsuits
      (ne_hex_of_movable hst hreading) hbs
    have hlength : cs.length = bs.length :=
      (Site.length_operandBytes hsuits hcs).trans (Site.length_operandBytes hsuits hbs).symm
    refine ⟨opcode :: cs, ?_, congrArg (· + 1) hlength,
      .inr ⟨r, opcode, bs, cs, hreading, ho, rfl, rfl, hmoves⟩⟩
    exact Except.map_eq_ok_iff.2 ⟨_, instruct_eq_ok_iff.2 ⟨m, hm, hmem',
      Site.encode_eq_ok_iff.2 ⟨r, opcode, cs, hr, ho, hcs, rfl⟩⟩, rfl⟩

end Statement

namespace Visit

theorem reading?_eq (v : Visit) :
    v.reading? = (Line.parse? v.text).bind (·.statement.reading?) := by
  unfold reading?
  cases Line.parse? v.text with
  | none => rfl
  | some l =>
    dsimp only [Option.bind_eq_bind, Option.bind_some]
    cases l.statement <;> rfl

structure Moves (o o' : Nat) (t t' : SymbolTable) (v w : Visit) : Prop where
  number : w.number = v.number
  text : w.text = v.text
  pc : w.pc + o = v.pc + o'
  effect : ∃ vs ws, v.effect = .bytes vs ∧ w.effect = .bytes ws ∧
    BytesMoved o o' t t' v.reading? vs ws

/-- A byte of the operand on a line, before and after everything has moved. It belongs to the
address of a label that the operand holds. -/
def HoldsAt (o o' : Nat) (t t' : SymbolTable) (v : Visit) (x y : Write) : Prop :=
  ∃ r name address address' k, v.reading? = some r ∧ r.Holds t name address ∧
    r.Holds t' name address' ∧ address'.toNat + o = address.toNat + o' ∧
    x.1.toNat = v.pc + 1 + k ∧
    (r.operand.field address)[k]? = some x.2 ∧ (r.operand.field address')[k]? = some y.2

variable {o o' : Nat} {t t' : SymbolTable} {v w : Visit} {vs ws : List Visit}

theorem forall₂_place {p q : Nat} {bs cs : List UInt8} (hlength : bs.length = cs.length)
    (hfit : p + bs.length ≤ 0x10000) :
    List.Forall₂ (fun x y : Write ↦ ∃ k, x.1.toNat = p + k ∧ bs[k]? = some x.2 ∧
      cs[k]? = some y.2) (Effect.place p bs) (Effect.place q cs) := by
  induction bs generalizing p q cs with
  | nil =>
    obtain rfl := List.length_eq_zero_iff.1 hlength.symm
    exact .nil
  | cons b bs ih =>
    obtain ⟨c, cs, rfl⟩ := List.exists_cons_of_length_eq_add_one hlength.symm
    rw [List.length_cons] at hfit
    have hnat : (UInt16.ofNat p).toNat = p :=
      UInt16.toNat_ofNat_of_lt (show p < 0x10000 by omega)
    refine .cons ⟨0, hnat, rfl, rfl⟩ ?_
    refine (ih (Nat.succ.inj hlength) (by omega)).imp fun x y ⟨k, hk, hb, hc⟩ ↦ ?_
    exact ⟨k + 1, by omega, hb, hc⟩

theorem Moves.forall₂_writes (h : Moves o o' t t' v w) (hfit : v.next ≤ 0x10000) :
    List.Forall₂ (fun x y ↦ x.2 = y.2 ∨ v.HoldsAt o o' t t' x y) v.writes w.writes := by
  have hsame : ∀ {p q : Nat} {bs : List UInt8}, p + bs.length ≤ 0x10000 →
      List.Forall₂ (fun x y ↦ x.2 = y.2 ∨ v.HoldsAt o o' t t' x y) (Effect.place p bs)
        (Effect.place q bs) := fun hle ↦
    (forall₂_place rfl hle).imp fun x y ⟨k, _, hx, hy⟩ ↦ .inl (Option.some.inj (hx.symm.trans hy))
  obtain ⟨vs, ws, hv, hw, hbytes⟩ := h.effect
  rw [next, hv, Effect.next] at hfit
  rw [writes, writes, hv, hw]
  obtain ⟨-, rfl⟩ | ⟨r, opcode, bs, cs, hr, -, rfl, rfl, hmoves⟩ := hbytes
  · exact hsame hfit
  · rw [List.length_cons] at hfit
    refine .cons (.inl rfl) ?_
    by_cases hholds : ∃ name address, r.Holds t name address
    · obtain ⟨name, address, hholds⟩ := hholds
      obtain ⟨rfl, address', hholds', hmoved, rfl⟩ := hmoves.field name address hholds
      have hlength : (r.operand.field address).length = (r.operand.field address').length := by
        cases r.operand <;> rfl
      refine (forall₂_place hlength (by omega)).imp fun x y hxy ↦ ?_
      obtain ⟨k, hk, hx, hy⟩ := hxy
      exact .inr ⟨r, name, address, address', k, hr, hholds, hholds', hmoved, hk, hx, hy⟩
    · push Not at hholds
      obtain rfl := hmoves.same hholds
      exact hsame (by omega)

theorem forall₂_flatMap_writes (h : List.Forall₂ (Moves o o' t t') vs ws)
    (hfit : ∀ v ∈ vs, v.next ≤ 0x10000) :
    List.Forall₂ (fun x y ↦ x.2 = y.2 ∨ ∃ v ∈ vs, v.HoldsAt o o' t t' x y) (vs.flatMap writes)
      (ws.flatMap writes) := by
  induction h with
  | nil => exact .nil
  | @cons v w vs ws hvw _ ih =>
    obtain ⟨hv, hvs⟩ := List.forall_mem_cons.1 hfit
    rw [List.flatMap_cons, List.flatMap_cons]
    refine List.rel_append ((hvw.forall₂_writes hv).imp fun x y hxy ↦ ?_)
      ((ih hvs).imp fun x y hxy ↦ ?_)
    · exact hxy.imp_right fun hholds ↦ ⟨v, List.mem_cons_self, hholds⟩
    · refine hxy.imp_right fun hholds ↦ ?_
      obtain ⟨u, hu, hholds⟩ := hholds
      exact ⟨u, List.mem_cons_of_mem v hu, hholds⟩

end Visit

/-- A line that does not read stops the assembly at any origin. -/
def Line.movable (text : Text) : Bool := (Line.parse? text).all (·.statement.movable)

theorem Line.movable_parse? {text : Text} {l : Line} (h : Line.movable text = true)
    (hl : Line.parse? text = some l) : l.statement.movable = true := by
  simpa only [Line.movable, hl, Option.all_some] using h

namespace Pass

variable {o o' number pc pc' end_ : Nat} {t t' : SymbolTable} {text : Text} {lines : List Text}
  {e : Effect}

theorem fit_of_le {vs : List UInt8} (h : pc + vs.length ≤ 0x10000) :
    Effect.fit pc (.bytes vs) = .ok (.bytes vs) := if_pos h

theorem line_commit_moved (ht : t.Moved o o' t') (hpc : pc' + o = pc + o')
    (hline : Line.movable text = true) (h : commit.line number pc t text = .ok (t, e))
    (hfit : e.next pc + o' ≤ 0x10000 + o) :
    ∃ e', commit.line number pc' t' text = .ok (t', e') ∧ e'.next pc' + o = e.next pc + o' ∧
      Visit.Moves o o' t t' ⟨number, pc, text, e⟩ ⟨number, pc', text, e'⟩ := by
  obtain ⟨-, l, hl, he⟩ := line_commit_ok h
  have hst := Line.movable_parse? hline hl
  obtain ⟨e, he, hf⟩ := Except.bind_eq_ok_iff.1 he
  obtain rfl := Effect.fit_ok hf
  obtain ⟨vs, rfl⟩ := Statement.exists_bytes_of_effect (Statement.ne_relocate_of_movable hst) he
  have hfit' : pc' + vs.length ≤ 0x10000 := by
    have hnext : pc + vs.length + o' ≤ 0x10000 + o := hfit
    omega
  obtain ⟨ws, hws, hlength, hmoves⟩ := Statement.effect_moved ht hpc hst he hfit'
  refine ⟨.bytes ws, ?_, ?_, ⟨rfl, rfl, hpc, vs, ws, rfl, rfl, ?_⟩⟩
  · refine line_eq_ok_iff.2 (.inr ⟨l, hl, rfl, ?_⟩)
    rw [hws, Except.ok_bind, fit_of_le (hlength ▸ hfit'), excuse_ok]
  · rw [Effect.next, Effect.next, hlength]
    omega
  · rw [Visit.reading?_eq]
    simp only [hl, Option.bind_some]
    exact hmoves

theorem le_counter_commit (hlines : ∀ text ∈ lines, Line.movable text = true)
    (h : (commit.walk number pc t lines).counter = .ok end_) :
    ∃ bs, (commit.walk number pc t lines).writes = Effect.place pc bs ∧
      end_ = pc + bs.length := by
  refine walk_of_bytes h fun v hv ↦ ?_
  have htext : v.text ∈ lines := map_text_visits h ▸ List.mem_map_of_mem hv
  obtain ⟨l, hl, he⟩ := statement_of_mem_visits_commit hv
  have hst := Line.movable_parse? (hlines v.text htext) hl
  exact Statement.exists_bytes_of_effect (Statement.ne_relocate_of_movable hst) he

theorem walk_commit_moved (ht : t.Moved o o' t') (hpc : pc' + o = pc + o')
    (hlines : ∀ text ∈ lines, Line.movable text = true)
    (h : (commit.walk number pc t lines).counter = .ok end_) (hend : end_ + o' ≤ 0x10000 + o) :
    (∃ end', (commit.walk number pc' t' lines).counter = .ok end') ∧
      List.Forall₂ (Visit.Moves o o' t t') (commit.visits number pc t lines)
        (commit.visits number pc' t' lines) := by
  induction lines generalizing number pc pc' with
  | nil => exact ⟨⟨pc', rfl⟩, .nil⟩
  | cons text rest ih =>
    obtain ⟨hline, hrest⟩ := List.forall_mem_cons.1 hlines
    obtain ⟨s, e, hl, hr⟩ := walk_cons_counter h
    obtain ⟨rfl, -⟩ := line_commit_ok hl
    obtain ⟨bs, -, hbs⟩ := le_counter_commit hrest hr
    obtain ⟨e', hl', hnext, hmoves⟩ := line_commit_moved ht hpc hline hl (by omega)
    obtain ⟨⟨end', hend'⟩, hvisits⟩ := ih hnext hrest hr
    rw [walk_cons_ok hl', visits_cons_ok hl, visits_cons_ok hl']
    exact ⟨⟨end', hend'⟩, .cons hmoves hvisits⟩

theorem declare_index_moved {label : Option Text} {s s' s₁ : SymbolTable} (hs : s.Moved o o' s')
    (hpc : pc' + o = pc + o') (h : index.declare number pc label s = .ok s₁)
    (hbound : ∀ x ∈ s₁.symbols, x.address.toNat + o' ≤ 0xFFFF + o) :
    ∃ s₁', index.declare number pc' label s' = .ok s₁' ∧ s₁.Moved o o' s₁' := by
  cases label with
  | none =>
    cases h
    exact ⟨s', rfl, hs⟩
  | some name =>
    obtain ⟨hsymbols, hnew⟩ := declare_index_ok h
    obtain ⟨hmem, hfind⟩ := hnew name rfl
    have hnat : (UInt16.ofNat pc).toNat = pc := UInt16.toNat_ofNat_of_lt (Nat.lt_succ_of_le hmem)
    have hlabel : (⟨name, UInt16.ofNat pc, number⟩ : Symbol) ∈ s₁.symbols := by
      rw [hsymbols]
      exact List.mem_append_right _ List.mem_cons_self
    have hmem' : pc' ≤ 0xFFFF := by
      have := hbound _ hlabel
      dsimp only at this
      omega
    have hnat' : (UInt16.ofNat pc').toNat = pc' :=
      UInt16.toNat_ofNat_of_lt (Nat.lt_succ_of_le hmem')
    refine ⟨⟨s'.symbols ++ [⟨name, UInt16.ofNat pc', number⟩]⟩, ?_, ?_⟩
    · simp only [declare, if_pos hmem', SymbolTable.insert, hs.find?_eq_none hfind]
    · unfold SymbolTable.Moved
      rw [hsymbols]
      refine List.rel_append hs (.cons ⟨rfl, rfl, ?_⟩ .nil)
      rw [hnat, hnat']
      exact hpc

theorem line_index_moved {s s' s₁ : SymbolTable} {e' : Effect} (hs : s.Moved o o' s')
    (hpc : pc' + o = pc + o') (hline : Line.movable text = true)
    (hi : index.line number pc s text = .ok (s₁, e))
    (hc : commit.line number pc t text = .ok (t, e')) (hfit : e'.next pc + o' ≤ 0x10000 + o)
    (hlabels : ∀ x ∈ s₁.symbols, x.address.toNat + o' ≤ 0xFFFF + o) :
    ∃ s₁' f, index.line number pc' s' text = .ok (s₁', f) ∧ s₁.Moved o o' s₁' ∧
      f.next pc' + o = e'.next pc + o' := by
  obtain ⟨-, l, hl, he⟩ := line_commit_ok hc
  obtain ⟨hnone, -⟩ | ⟨l', hl', hd, -⟩ := line_eq_ok_iff.1 hi
  · exact absurd (hl.symm.trans hnone) nofun
  · obtain rfl : l = l' := Option.some.inj (hl.symm.trans hl')
    obtain ⟨s₁', hd', hs₁⟩ := declare_index_moved hs hpc hd hlabels
    obtain ⟨e, he, hf⟩ := Except.bind_eq_ok_iff.1 he
    obtain rfl := Effect.fit_ok hf
    obtain ⟨vs, rfl⟩ := Statement.exists_bytes_of_effect
      (Statement.ne_relocate_of_movable (Line.movable_parse? hline hl)) he
    have hmem : pc' + vs.length ≤ 0x10000 := by
      have hnext : pc + vs.length + o' ≤ 0x10000 + o := hfit
      omega
    obtain ⟨f, hf', halike⟩ : ∃ f, l.statement.effect index s₁' pc' = .ok f ∧
        f.Alike (.bytes vs) := by
      refine Statement.effect_index he fun name operand hinstruction _ ↦ ?_
      rw [hinstruction] at he
      have hlength := List.length_pos_iff.2 (Statement.ne_nil_of_instruction he)
      omega
    refine ⟨s₁', f, line_eq_ok_iff.2 (.inr ⟨l, hl, hd', ?_⟩), hs₁, ?_⟩
    · rw [hf', Except.ok_bind, halike.fit (fit_of_le hmem), excuse_ok]
    · rw [halike.next_eq, Effect.next, Effect.next]
      omega

theorem walk_index_moved {s s' : SymbolTable} {end₁ : Nat} (hs : s.Moved o o' s')
    (hpc : pc' + o = pc + o') (hlines : ∀ text ∈ lines, Line.movable text = true)
    (hi : (index.walk number pc s lines).counter = .ok end₁)
    (hc : (commit.walk number pc t lines).counter = .ok end_) (hend : end_ + o' ≤ 0x10000 + o)
    (hlabels : ∀ x ∈ (index.walk number pc s lines).symbols.symbols,
      x.address.toNat + o' ≤ 0xFFFF + o) :
    (∃ end', (index.walk number pc' s' lines).counter = .ok end') ∧
      (index.walk number pc s lines).symbols.Moved o o'
        (index.walk number pc' s' lines).symbols := by
  induction lines generalizing number pc pc' s s' with
  | nil => exact ⟨⟨pc', rfl⟩, hs⟩
  | cons text rest ih =>
    obtain ⟨hline, hrest⟩ := List.forall_mem_cons.1 hlines
    obtain ⟨s₁, e, hli, hri⟩ := walk_cons_counter hi
    obtain ⟨t₁, e', hlc, hrc⟩ := walk_cons_counter hc
    obtain ⟨rfl, -⟩ := line_commit_ok hlc
    have hnext : e.next pc = e'.next pc := (line_alike hli hlc).next_eq
    obtain ⟨bs, -, hbs⟩ := le_counter_commit hrest hrc
    rw [walk_cons_ok hli] at hlabels ⊢
    -- Labels are only added to the table, so that those of one line are among all of them.
    have hlabels₁ : ∀ x ∈ s₁.symbols, x.address.toNat + o' ≤ 0xFFFF + o := fun x hx ↦
      hlabels x (symbols_walk_index ▸ List.mem_append_left _ hx)
    obtain ⟨s₁', f, hline', hs₁, hpc'⟩ := line_index_moved hs hpc hline hli hlc (by omega) hlabels₁
    rw [walk_cons_ok hline']
    rw [← hnext] at hpc' hrc
    exact ih hs₁ hpc' hrest hri hrc hlabels

end Pass

/-- A source at two origins: its labels, its lines, and its bytes with their addresses. -/
structure OriginShift (source : Text) (origin origin' n : Nat) (t t' : SymbolTable)
    (ws ws' : List Write) (vs vs' : List Visit) : Prop where
  symbols : t.Moved origin origin' t'
  texts : vs.map Visit.text = source.lines
  lines : List.Forall₂ (Visit.Moves origin origin' t t') vs vs'
  writes : ws = vs.flatMap Visit.writes
  writes' : ws' = vs'.flatMap Visit.writes
  addresses : ws.map (fun w ↦ w.1.toNat) = List.range' origin n
  addresses' : ws'.map (fun w ↦ w.1.toNat) = List.range' origin' n
  bytes : List.Forall₂
    (fun x y ↦ x.2 = y.2 ∨ ∃ v ∈ vs, v.HoldsAt origin origin' t t' x y) ws ws'

namespace Assembler

variable {a b : Assembler} {source : Text} {m m' : Memory} {n : Nat}

/-- A source that leaves its place open assembles at any origin that has room for its bytes and its
labels, to as many bytes. Labels stand where they stood, seen from the origin, and bytes are the
same but for the addresses of labels. -/
theorem assemble_moved (hlines : ∀ text ∈ source.lines, Line.movable text = true)
    (h : (a.assemble source m).result = .ok n) (hfit : b.origin.toNat + n ≤ 0x10000)
    (hlabels : ∀ s ∈ (a.assemble source m).assembler.symbols.symbols,
      s.address.toNat + b.origin.toNat ≤ 0xFFFF + a.origin.toNat) :
    (b.assemble source m').result = .ok n ∧
      let t := (a.assemble source m).assembler.symbols
      let t' := (b.assemble source m').assembler.symbols
      OriginShift source a.origin.toNat b.origin.toNat n t t'
        ((a.runPass .index source).2.2.runPass .commit source).2.1
        ((b.runPass .index source).2.2.runPass .commit source).2.1
        (Pass.commit.visits 1 a.origin.toNat t source.lines)
        (Pass.commit.visits 1 b.origin.toNat t' source.lines) := by
  obtain ⟨end₁, end₂, hi, hc, hne, rfl⟩ := assemble_ok_iff.1 h
  have hfixed : ∀ text ∈ source.lines, ∀ l target, Line.parse? text = some l →
      l.statement ≠ .relocate target := fun text htext l target hl ↦
    Statement.ne_relocate_of_movable (Line.movable_parse? (hlines text htext) hl) target
  rw [(assemble_ok hi hc).2] at hlabels ⊢
  have hend : end₂ + b.origin.toNat ≤ 0x10000 + a.origin.toNat := by
    obtain ⟨bs, hbs, hend₂⟩ := Pass.le_counter_commit hlines hc
    have hlength : (a.commitWalk source).writes.length = bs.length :=
      (congrArg List.length hbs).trans (Effect.length_place _ _)
    omega
  obtain ⟨⟨end₁', hi'⟩, hsymbols⟩ := Pass.walk_index_moved .nil (Nat.add_comm _ _) hlines hi hc
    hend hlabels
  obtain ⟨⟨end₂', hc'⟩, hvisits⟩ := Pass.walk_commit_moved hsymbols (Nat.add_comm _ _) hlines hc
    hend
  have hbytes := Visit.forall₂_flatMap_writes hvisits fun v hv ↦
    Pass.next_le_of_mem_visits_commit hv (Nat.le_of_lt a.origin.toNat_lt)
  rw [← Pass.writes_walk, ← Pass.writes_walk] at hbytes
  have hlength : (b.commitWalk source).writes.length = (a.commitWalk source).writes.length :=
    hbytes.length_eq.symm
  have hne' : (b.commitWalk source).writes ≠ [] := by
    rw [← List.length_pos_iff, hlength]
    exact List.length_pos_iff.2 hne
  refine ⟨assemble_ok_iff.2 ⟨end₁', end₂', hi', hc', hne', hlength⟩, ?_⟩
  rw [(assemble_ok hi' hc').2]
  exact {
    symbols := hsymbols
    texts := Pass.map_text_visits hc
    lines := hvisits
    writes := Pass.writes_walk
    writes' := Pass.writes_walk
    addresses := (addresses_of_no_relocation hc hfixed).1
    addresses' := (addresses_of_no_relocation hc' hfixed).1.trans (by rw [hlength])
    bytes := hbytes }

def placeless : Text :=
  "top: LDX #<at\nloop: LDA at,X\nBNE loop\nJMP (to)\nto: DCB $0A,0\nLDY #>top\nat: DCB 1".toList

theorem assemble_moved_placeless :
    let r := standard.assemble placeless .blank
    let r' := (ofOrigin 0xFFF1).assemble placeless .blank
    r.result = .ok 15 ∧ r'.result = .ok 15 ∧ OriginShift placeless 0x0600 0xFFF1 15
      r.assembler.symbols r'.assembler.symbols
      ((standard.runPass .index placeless).2.2.runPass .commit placeless).2.1
      (((ofOrigin 0xFFF1).runPass .index placeless).2.2.runPass .commit placeless).2.1
      (Pass.commit.visits 1 0x0600 r.assembler.symbols placeless.lines)
      (Pass.commit.visits 1 0xFFF1 r'.assembler.symbols placeless.lines) := by
  have h : (standard.assemble placeless .blank).result = .ok 15 := by decide +kernel
  exact ⟨h, assemble_moved (a := standard) (b := ofOrigin 0xFFF1) (by decide +kernel) h
    (by decide +kernel) (by decide +kernel)⟩

end Assembler

end Micro6502
