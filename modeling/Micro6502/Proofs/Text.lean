import Micro6502.Source.Numeral
import Mathlib.Data.List.Basic

namespace Micro6502.Text

variable {t l rest : Text} {c : Char}

theorem isWordChar_iff : isWordChar c = true ↔
    65 ≤ c.toNat ∧ c.toNat ≤ 90 ∨ 97 ≤ c.toNat ∧ c.toNat ≤ 122 ∨ 48 ≤ c.toNat ∧ c.toNat ≤ 57 ∨
      c = '_' := by
  have hu : c.isUpper = true ↔ 65 ≤ c.toNat ∧ c.toNat ≤ 90 := decide_eq_true_iff
  have hl : c.isLower = true ↔ 97 ≤ c.toNat ∧ c.toNat ≤ 122 :=
    (Bool.and_eq_true _ _).to_iff.trans (and_congr decide_eq_true_iff decide_eq_true_iff)
  have hd : c.isDigit = true ↔ 48 ≤ c.toNat ∧ c.toNat ≤ 57 := Char.isDigit_iff_toNat
  have h : isWordChar c = (((c.isUpper || c.isLower) || c.isDigit) || c == '_') := rfl
  rw [h, Bool.or_eq_true, Bool.or_eq_true, Bool.or_eq_true, hu, hl, hd, beq_iff_eq, or_assoc,
    or_assoc]

theorem toNat_toUpper (c : Char) : c.toUpper.toNat =
    if 97 ≤ c.toNat ∧ c.toNat ≤ 122 then c.toNat - 32 else c.toNat := by
  have hshift : ('A'.val - 'a'.val).toNat = 2 ^ 32 - 32 := by decide
  unfold Char.toUpper
  split
  · rename_i h
    have hlo : 97 ≤ c.toNat := UInt32.le_iff_toNat_le.1 h.1
    have hhi : c.toNat ≤ 122 := UInt32.le_iff_toNat_le.1 h.2
    rw [if_pos ⟨hlo, hhi⟩]
    change (c.val + ('A'.val - 'a'.val)).toNat = c.toNat - 32
    rw [UInt32.toNat_add, hshift]
    change (c.toNat + (2 ^ 32 - 32)) % 2 ^ 32 = c.toNat - 32
    omega
  · rename_i h
    refine (if_neg fun hlower ↦ h ?_).symm
    exact ⟨UInt32.le_iff_toNat_le.2 hlower.1, UInt32.le_iff_toNat_le.2 hlower.2⟩

theorem toUpper_eq_iff {upper lower : Char} (hu : 65 ≤ upper.toNat ∧ upper.toNat ≤ 90)
    (hl : lower.toNat = upper.toNat + 32) : c.toUpper = upper ↔ c = upper ∨ c = lower := by
  rw [← Char.toNat_inj, ← Char.toNat_inj, ← Char.toNat_inj, toNat_toUpper, hl]
  split
  · omega
  · omega

theorem capitals_eq_singleton_iff {upper lower : Char} (hu : 65 ≤ upper.toNat ∧ upper.toNat ≤ 90)
    (hl : lower.toNat = upper.toNat + 32) : capitals t = [upper] ↔ t = [upper] ∨ t = [lower] := by
  rw [capitals, List.map_eq_singleton_iff]
  constructor
  · rintro ⟨c, rfl, hc⟩
    exact ((toUpper_eq_iff hu hl).1 hc).imp (congrArg ([·])) (congrArg ([·]))
  · rintro (rfl | rfl)
    · exact ⟨upper, rfl, (toUpper_eq_iff hu hl).2 (.inl rfl)⟩
    · exact ⟨lower, rfl, (toUpper_eq_iff hu hl).2 (.inr rfl)⟩

theorem isWordChar_toUpper (c : Char) : isWordChar c.toUpper = isWordChar c := by
  have hunderscore : ∀ d : Char, d = '_' ↔ d.toNat = 95 := fun d ↦ Char.toNat_inj.symm
  rw [Bool.eq_iff_iff, isWordChar_iff, isWordChar_iff, hunderscore, hunderscore, toNat_toUpper]
  split
  · omega
  · rfl

theorem toNat_of_isWordChar (h : isWordChar c = true) : 48 ≤ c.toNat ∧ c.toNat ≤ 122 := by
  obtain h | h | h | rfl := isWordChar_iff.1 h
  · omega
  · omega
  · omega
  · decide

theorem isBlank_of_isWordChar (h : isWordChar c = true) : isBlank c = false := by
  obtain ⟨hlo, hhi⟩ := toNat_of_isWordChar h
  simp only [isBlank, blanks, List.any_cons, List.any_nil, Bool.or_eq_false_iff,
    Bool.and_eq_false_iff, decide_eq_false_iff_not, and_true]
  omega

theorem isWordChar_of_isBlank (h : isBlank c = true) : isWordChar c = false :=
  Bool.eq_false_iff.2 fun hw ↦ Bool.false_ne_true ((isBlank_of_isWordChar hw).symm.trans h)

theorem skip_eq_self (h : ∀ c ∈ t.head?, isBlank c = false) : skip t = t := by
  cases t with
  | nil => rfl
  | cons c t => exact List.dropWhile_cons_of_neg (by simpa using h c rfl)

theorem trim_eq_self (hh : ∀ c ∈ t.head?, isBlank c = false)
    (hl : ∀ c ∈ t.getLast?, isBlank c = false) : trim t = t := by
  rw [trim, skip_eq_self hh, skip_eq_self, List.reverse_reverse]
  rwa [List.head?_reverse]

theorem mem_of_mem_skip (h : c ∈ skip t) : c ∈ t :=
  (List.dropWhile_suffix _).subset h

theorem mem_of_mem_trim (h : c ∈ trim t) : c ∈ t := by
  have hskip : c ∈ skip (skip t).reverse := List.mem_reverse.1 h
  have hrev : c ∈ (skip t).reverse := mem_of_mem_skip hskip
  exact mem_of_mem_skip (List.mem_reverse.1 hrev)

def chomp (t : Text) : Text := if t.getLast? = some '\r' then t.dropLast else t

theorem chomp_append_return (t : Text) : chomp (t ++ ['\r']) = t := by
  rw [chomp, if_pos List.getLast?_concat, List.dropLast_concat]

theorem chomp_eq_self (h : '\r' ∉ t) : chomp t = t :=
  if_neg fun hlast ↦ h (List.mem_of_getLast? hlast)

theorem lines_append_feed (h : '\n' ∉ l) : lines (l ++ '\n' :: rest) = chomp l :: lines rest := by
  induction l with
  | nil => rfl
  | cons c l ih =>
    rw [List.mem_cons, not_or] at h
    have hn : c ≠ '\n' := fun hc ↦ h.1 hc.symm
    cases l with
    | nil =>
      by_cases hr : c = '\r'
      · subst hr
        rfl
      · have hcons := lines.eq_4 c ('\n' :: rest) (fun _ hc _ ↦ hr hc) hn
        have hchomp : chomp [c] = [c] := chomp_eq_self (by simpa using fun hc ↦ hr hc.symm)
        rw [List.cons_append, List.nil_append, hcons, hchomp]
        rfl
    | cons d l =>
      -- A line feed stands behind the carriage return of a line end, and `d` is none.
      have hcons := lines.eq_4 c (d :: l ++ '\n' :: rest)
        (fun _ _ hd ↦ h.2 (List.mem_cons.2 (.inl (List.cons.inj hd).1.symm))) hn
      have hchomp : chomp (c :: d :: l) = c :: chomp (d :: l) := by
        unfold chomp
        rw [List.getLast?_cons_cons]
        split
        · rfl
        · rfl
      rw [List.cons_append, hcons, ih h.2, hchomp]

theorem exists_lines_eq {ls : List Text} (h : ∀ l ∈ ls, '\n' ∉ l) : ∃ t, lines t = ls := by
  induction ls with
  | nil => exact ⟨[], rfl⟩
  | cons l ls ih =>
    obtain ⟨hl, hls⟩ := List.forall_mem_cons.1 h
    obtain ⟨t, rfl⟩ := ih hls
    refine ⟨l ++ ['\r'] ++ '\n' :: t, ?_⟩
    have hfeed : '\n' ∉ l ++ ['\r'] := by
      rw [List.mem_append, not_or]
      exact ⟨hl, by decide⟩
    rw [lines_append_feed hfeed, chomp_append_return]

theorem lines_singleton (hl : l ≠ []) (h : '\n' ∉ l) : lines l = [l] := by
  induction l with
  | nil => exact absurd rfl hl
  | cons c l ih =>
    rw [List.mem_cons, not_or] at h
    have hn : c ≠ '\n' := fun hc ↦ h.1 hc.symm
    rw [lines.eq_4 c l (fun _ _ hl ↦ h.2 (hl ▸ List.mem_cons_self)) hn]
    by_cases hl' : l = []
    · subst hl'
      rfl
    · rw [ih hl' h.2]

/-- Lines that hold characters, none of them a line end, survive being joined. -/
theorem lines_intercalate {ls : List Text}
    (h : ∀ l ∈ ls, l ≠ [] ∧ ∀ c ∈ l, c ≠ '\n' ∧ c ≠ '\r') :
    lines (List.intercalate ['\n'] ls) = ls := by
  induction ls with
  | nil => rfl
  | cons l ls ih =>
    obtain ⟨hl, hc⟩ := h l List.mem_cons_self
    have hn : '\n' ∉ l := fun hm ↦ (hc _ hm).1 rfl
    have hr : '\r' ∉ l := fun hm ↦ (hc _ hm).2 rfl
    cases ls with
    | nil => rw [List.intercalate_singleton, lines_singleton hl hn]
    | cons l' ls =>
      rw [List.intercalate_cons_cons, List.append_assoc, List.singleton_append,
        lines_append_feed hn, chomp_eq_self hr, ih fun k hk ↦ h k (List.mem_cons_of_mem l hk)]

theorem newline_not_mem_of_mem_lines (h : l ∈ lines t) : '\n' ∉ l := by
  induction t using lines.induct generalizing l with
  | case1 => cases h
  | case2 rest ih | case3 rest ih =>
    rw [lines, List.mem_cons] at h
    obtain rfl | h := h
    · exact List.not_mem_nil
    · exact ih h
  | case4 c rest hr hn hlines ih =>
    rw [lines.eq_4 c rest hr hn, hlines, List.mem_singleton] at h
    rw [h, List.mem_singleton]
    exact fun hc ↦ hn hc.symm
  | case5 c rest hr hn line more hlines ih =>
    rw [lines.eq_4 c rest hr hn, hlines, List.mem_cons] at h
    rw [hlines] at ih
    obtain rfl | h := h
    · rw [List.mem_cons, not_or]
      exact ⟨fun hc ↦ hn hc.symm, ih List.mem_cons_self⟩
    · exact ih (List.mem_cons_of_mem _ h)

theorem exists_append_lines {ls ms : List Text} (h : lines t = ls ++ ms) :
    ∃ p q, t = p ++ q ∧ lines p = ls ∧ lines q = ms := by
  induction t using lines.induct generalizing ls with
  | case1 =>
    obtain ⟨rfl, rfl⟩ := List.nil_eq_append_iff.1 h
    exact ⟨[], [], rfl, rfl, rfl⟩
  | case2 rest ih | case3 rest ih =>
    cases ls with
    | nil => exact ⟨[], _, rfl, rfl, h⟩
    | cons l ls =>
      rw [lines, List.cons_append, List.cons.injEq] at h
      obtain ⟨rfl, hrest⟩ := h
      obtain ⟨p, q, rfl, rfl, hq⟩ := ih hrest
      first
      | exact ⟨'\r' :: '\n' :: p, q, rfl, rfl, hq⟩
      | exact ⟨'\n' :: p, q, rfl, rfl, hq⟩
  | case4 c rest hr hn hlines ih =>
    cases ls with
    | nil => exact ⟨[], _, rfl, rfl, h⟩
    | cons l ls =>
      have hwhole := h
      rw [lines.eq_4 c rest hr hn, hlines, List.cons_append, List.cons.injEq] at h
      obtain ⟨rfl, hnil⟩ := h
      obtain ⟨rfl, rfl⟩ := List.nil_eq_append_iff.1 hnil
      exact ⟨c :: rest, [], (List.append_nil _).symm, hwhole, rfl⟩
  | case5 c rest hr hn line more hlines ih =>
    cases ls with
    | nil => exact ⟨[], _, rfl, rfl, h⟩
    | cons l ls =>
      rw [lines.eq_4 c rest hr hn, hlines, List.cons_append, List.cons.injEq] at h
      obtain ⟨rfl, hmore⟩ := h
      have hcut : lines rest = (line :: ls) ++ ms := by rw [hlines, hmore, List.cons_append]
      obtain ⟨p, q, rfl, hp, hq⟩ := ih hcut
      refine ⟨c :: p, q, rfl, ?_, hq⟩
      rw [lines.eq_4 c p (fun p' hc hp' ↦ hr (p' ++ q) hc (by rw [hp', List.cons_append])) hn, hp]

end Micro6502.Text
