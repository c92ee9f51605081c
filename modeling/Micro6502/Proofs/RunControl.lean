import Micro6502.Proofs.History

namespace Micro6502.Machine

variable {m : Machine} {a : Action} {as : List Action}

theorem after_append (m : Machine) (as bs : List Action) :
    m.after (as ++ bs) = (m.after as).after bs := List.foldl_append

/-- The latest operation that throws a program away is an assembly that succeeds. -/
def AssembledLast (m : Machine) (as : List Action) : Prop :=
  ∃ before source later n, as = before ++ .assemble source :: later ∧
    ((m.after before).assemble source).1 = .ok n ∧ ∀ a ∈ later, a.discards = false

theorem not_assembledLast_nil : ¬ m.AssembledLast [] := by
  rintro ⟨before, source, later, n, h, -⟩
  exact List.append_ne_nil_of_right_ne_nil _ (List.cons_ne_nil _ _) h.symm

theorem assembledLast_cons : m.AssembledLast (a :: as) ↔
    (m.act a).AssembledLast as ∨
      (∃ source n, a = .assemble source ∧ (m.assemble source).1 = .ok n) ∧
        ∀ b ∈ as, b.discards = false := by
  constructor
  · rintro ⟨before, source, later, n, h, hn, hlater⟩
    cases before with
    | nil =>
      obtain ⟨rfl, rfl⟩ := List.cons.inj h
      exact .inr ⟨⟨source, n, rfl, hn⟩, hlater⟩
    | cons b before =>
      obtain ⟨rfl, rfl⟩ := List.cons.inj h
      exact .inl ⟨before, source, later, n, rfl, hn, hlater⟩
  · rintro (⟨before, source, later, n, rfl, hn, hlater⟩ | ⟨⟨source, n, rfl, hn⟩, hlater⟩)
    · exact ⟨a :: before, source, later, n, rfl, hn, hlater⟩
    · exact ⟨[], source, as, n, rfl, hn, hlater⟩

theorem compiled_act_iff : (m.act a).compiled = true ↔
    (∃ source n, a = .assemble source ∧ (m.assemble source).1 = .ok n) ∨
      m.compiled = true ∧ a.discards = false := by
  cases hd : a.discards with
  | false =>
    rw [compiled_act_of_discards_eq_false hd]
    constructor
    · intro h
      exact .inr ⟨h, rfl⟩
    · rintro (⟨source, n, rfl, -⟩ | ⟨h, -⟩)
      · cases hd
      · exact h
  | true =>
    cases a with
    | assemble source =>
      have hok : (m.act (.assemble source)).compiled = (m.assemble source).1.isOk := by
        rw [act, assemble_eq]
      rw [hok]
      cases hr : (m.assemble source).1 with
      | error e => simp [Except.isOk, Except.toBool, hr]
      | ok n => simp [Except.isOk, Except.toBool, hr]
    | reset full =>
      cases full with
      | false => cases hd
      | true => simp [act, reset]
    | _ => cases hd

theorem compiled_after_iff : (m.after as).compiled = true ↔
    m.AssembledLast as ∨ m.compiled = true ∧ ∀ a ∈ as, a.discards = false := by
  induction as generalizing m with
  | nil =>
    constructor
    · intro h
      exact .inr ⟨h, List.forall_mem_nil _⟩
    · rintro (h | ⟨h, -⟩)
      · exact absurd h not_assembledLast_nil
      · exact h
  | cons a as ih =>
    -- What the first action leaves is lost or kept by the rest of the history.
    have hact : m.after (a :: as) = (m.act a).after as := rfl
    rw [hact, ih, assembledLast_cons, compiled_act_iff, List.forall_mem_cons, or_and_right,
      or_assoc, and_assoc]

theorem running_act_of_discards (h : a.discards = true) : (m.act a).running = false := by
  cases a with
  | assemble source =>
    rw [act, assemble_eq]
    rfl
  | reset full => cases full <;> rfl
  | _ => cases h

theorem compiled_act_of_running (h : m.running = true → m.compiled = true)
    (hr : (m.act a).running = true) : (m.act a).compiled = true := by
  have hd : a.discards = false := by
    cases hd : a.discards with
    | false => rfl
    | true => exact absurd hr (Bool.eq_false_iff.1 (running_act_of_discards hd))
  rw [compiled_act_of_discards_eq_false hd]
  cases hs : a.starts with
  | false =>
    cases hm : m.running with
    | true => exact h hm
    | false => exact absurd hr (Bool.eq_false_iff.1 (running_act_of_stopped hm hs))
  | true =>
    have hor : (m.compiled || m.running) = true := by
      cases a with
      | start => exact m.running_start.symm.trans hr
      | run maxTicks => exact (Bool.and_eq_true_iff.1 ((m.running_run maxTicks).symm.trans hr)).1
      | _ => cases hs
    rcases Bool.or_eq_true_iff.1 hor with hc | hm
    · exact hc
    · exact h hm

theorem compiled_of_running_after (h : m.running = true → m.compiled = true) (as : List Action)
    (hr : (m.after as).running = true) : (m.after as).compiled = true := by
  induction as generalizing m with
  | nil => exact h hr
  | cons a as ih => exact ih (compiled_act_of_running h) hr

theorem running_after_of_stopped (h : m.running = false) (hs : ∀ a ∈ as, a.starts = false) :
    (m.after as).running = false := by
  induction as generalizing m with
  | nil => exact h
  | cons a as ih =>
    obtain ⟨ha, has⟩ := List.forall_mem_cons.1 hs
    exact ih (running_act_of_stopped h ha) has

theorem tick_of_stopped (h : m.running = false) : m.tick = ((0, none), m) := by
  have hslice : m.slice = ⟨0, none, m.processor, m.memory⟩ := by
    rw [slice, Scheduler.tick_of_stopped h]
  have hticked : m.ticked = m := by
    rw [ticked, hslice, Scheduler.tick_of_stopped h]
  rw [tick_eq_match, hslice, hticked]

theorem run_of_uncompiled (hc : m.compiled = false) (hr : m.running = false) (n : Nat) :
    m.run n = (none, m.refuse) := by
  rw [run, start_of_uncompiled _ hc]
  exact if_neg (Bool.eq_false_iff.1 hr)

theorem act_of_uncompiled (hc : m.compiled = false) (hr : m.running = false) (n : Nat) :
    ∀ a ∈ [Action.start, .tick, .step, .run n], ∃ log, m.act a = { m with log := log } := by
  intro a ha
  simp only [List.mem_cons, List.not_mem_nil, or_false] at ha
  rcases ha with rfl | rfl | rfl | rfl
  · exact ⟨_, start_of_uncompiled m hc⟩
  · exact ⟨m.log, congrArg Prod.snd (tick_of_stopped hr)⟩
  · exact ⟨_, congrArg Prod.snd (step_of_uncompiled m hc)⟩
  · exact ⟨_, congrArg Prod.snd (run_of_uncompiled hc hr n)⟩

/-- When a machine may run, and what it does when it may not. -/
structure RunControl (m : Machine) (as : List Action) : Prop where
  compiled_of_running : (m.after as).running = true → (m.after as).compiled = true
  compiled_iff : (m.after as).compiled = true ↔ m.AssembledLast as
  refuses : (m.after as).compiled = false →
    ∀ maxTicks, ∀ a ∈ [Action.start, .tick, .step, .run maxTicks],
      ((m.after as).act a).processor = (m.after as).processor ∧
        ((m.after as).act a).memory = (m.after as).memory ∧
        ((m.after as).act a).running = false
  rests : ∀ a later, (m.after as).haltsIn a = true → (∀ b ∈ later, b.starts = false) →
    (m.after (as ++ a :: later)).tick = ((0, none), m.after (as ++ a :: later))

theorem runControl_fresh (c : Config) (draw? : Option (Nat → UInt32)) (as : List Action) :
    (fresh c draw?).RunControl as := by
  have hrunning : (fresh c draw?).running = false := by cases draw? <;> rfl
  have hcompiled : (fresh c draw?).compiled = false := by cases draw? <;> rfl
  have himp : ((fresh c draw?).after as).running = true →
      ((fresh c draw?).after as).compiled = true :=
    compiled_of_running_after (fun h ↦ absurd h (Bool.eq_false_iff.1 hrunning)) as
  constructor
  case compiled_of_running => exact himp
  case compiled_iff =>
    rw [compiled_after_iff]
    constructor
    · rintro (h | ⟨h, -⟩)
      · exact h
      · exact absurd h (Bool.eq_false_iff.1 hcompiled)
    · exact .inl
  case refuses =>
    intro hc maxTicks a ha
    have hr : ((fresh c draw?).after as).running = false :=
      Bool.eq_false_iff.2 fun h ↦ Bool.eq_false_iff.1 hc (himp h)
    obtain ⟨log, hlog⟩ := act_of_uncompiled hc hr maxTicks a ha
    rw [hlog]
    exact ⟨rfl, rfl, hr⟩
  case rests =>
    intro a later hhalts hstarts
    have hstopped := running_after_of_stopped (running_act_of_haltsIn hhalts) hstarts
    refine tick_of_stopped ?_
    rw [after_append]
    exact hstopped

theorem runControl_fresh_broken :
    let m := fresh {} none
    let as := [.assemble "NOP".toList, .hookReads ⟨0, 0xFFFF⟩ (some (.host fun _ ↦ 0)), .start]
    m.RunControl as ∧ (m.after as).haltsIn .tick = true ∧
      (m.after (as ++ [.tick, .keyPress 1])).tick.1 = (0, none) := by
  intro m as
  have hcontrol : m.RunControl as := runControl_fresh {} none as
  have hhalts : (m.after as).haltsIn .tick = true := by decide +kernel
  have hrests := hcontrol.rests .tick [.keyPress 1] hhalts (by decide)
  exact ⟨hcontrol, hhalts, congrArg Prod.fst hrests⟩

end Micro6502.Machine
