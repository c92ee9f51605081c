import Micro6502.Display.PixelBuffer
import Micro6502.Proofs.MemoryInvariant
import Micro6502.Proofs.Watcher

namespace Micro6502

namespace Resolution

variable {r : Resolution} {a i x y : UInt16}

theorem contains_range : r.range.contains a = true ↔ a - r.base < r.cells := by
  have ha := a.toNat_lt
  rw [AddressRange.contains_iff, UInt16.lt_iff_toNat_lt, UInt16.toNat_sub]
  cases r <;> simp [range, last, base, cells, side] <;> omega

theorem isEmpty_range : r.range.isEmpty = false := by
  cases r <;> rfl

theorem mem_offsets : i ∈ r.offsets ↔ i < r.cells := by
  simp only [offsets, List.mem_map, List.mem_range, UInt16.lt_iff_toNat_lt]
  constructor
  · intro h
    obtain ⟨n, hn, hi⟩ := h
    rw [← hi, UInt16.toNat_ofNat_of_lt' (Nat.lt_trans hn r.cells.toNat_lt)]
    exact hn
  · intro h
    exact ⟨i.toNat, h, UInt16.ofNat_toNat⟩

theorem toNat_cells (r : Resolution) : r.cells.toNat = r.side.toNat * r.side.toNat := by
  cases r <;> rfl

theorem offset_lt (hx : x < r.side) (hy : y < r.side) :
    y.toNat * r.side.toNat + x.toNat < r.cells.toNat := by
  have hrow : (y.toNat + 1) * r.side.toNat ≤ r.cells.toNat := by
    rw [toNat_cells]
    exact Nat.mul_le_mul_right _ (UInt16.lt_iff_toNat_lt.1 hy)
  refine Nat.lt_of_lt_of_le ?_ hrow
  rw [Nat.succ_mul]
  exact Nat.add_lt_add_left (UInt16.lt_iff_toNat_lt.1 hx) _

theorem toNat_offset (hx : x < r.side) (hy : y < r.side) :
    (y * r.side + x).toNat = y.toNat * r.side.toNat + x.toNat := by
  have hlt := Nat.lt_trans (offset_lt hx hy) r.cells.toNat_lt
  rw [UInt16.toNat_add, UInt16.toNat_mul, Nat.mod_add_mod, Nat.mod_eq_of_lt hlt]

end Resolution

namespace PixelBuffer

variable {b : PixelBuffer} {r : Resolution} {m m' : Memory} {a : UInt16} {v : UInt8}

theorem draw_append (b : PixelBuffer) (cs ds : Array Call) :
    b.draw (cs ++ ds) = (b.draw cs).draw ds := Array.foldl_append

theorem draw_callsOf (b : PixelBuffer) (h : ReadHook) (a : UInt16) : b.draw (h.callsOf a) = b := by
  obtain ⟨range, reader, asked⟩ := h
  cases reader <;> rfl

theorem draw_cons (b : PixelBuffer) (i : UInt16) (color : UInt8) (cs : List Call) :
    b.draw (.pixel i color :: cs).toArray = (b.set i color).draw cs.toArray := by
  rw [List.toArray_cons, draw_append]
  rfl

theorem pixels_set (b : PixelBuffer) (i j : UInt16) (color : UInt8) (h : j.toNat < b.pixels.size) :
    (b.set i color).pixels[j.toNat]? = if i = j then some color else b.pixels[j.toNat]? := by
  rw [set, Array.getElem?_setIfInBounds]
  by_cases hij : i = j
  · rw [hij, if_pos rfl, if_pos rfl, if_pos h]
  · rw [if_neg (mt UInt16.toNat_inj.1 hij), if_neg hij]

theorem draw_pixels (b : PixelBuffer) (is : List UInt16) (color : UInt16 → UInt8) :
    let b' := b.draw (is.map fun i ↦ .pixel i (color i)).toArray
    b'.side = b.side ∧ b'.pixels.size = b.pixels.size ∧
      ∀ i : UInt16, i.toNat < b.pixels.size → b'.pixels[i.toNat]? =
        if i ∈ is then some (color i) else b.pixels[i.toNat]? := by
  induction is generalizing b with
  | nil => exact ⟨rfl, rfl, fun i _ ↦ rfl⟩
  | cons j is ih =>
    obtain ⟨hside, hsize, hpixel⟩ := ih (b.set j (color j))
    have hset : (b.set j (color j)).pixels.size = b.pixels.size := Array.size_setIfInBounds
    rw [hset] at hsize hpixel
    rw [List.map_cons, draw_cons]
    refine ⟨hside, hsize, ?_⟩
    intro i hi
    rw [hpixel i hi, pixels_set b j i _ hi]
    by_cases his : i ∈ is
    · rw [if_pos his, if_pos (List.mem_cons_of_mem j his)]
    · by_cases hij : j = i
      · rw [if_neg his, if_pos hij, hij, if_pos List.mem_cons_self]
      · have hmem : i ∉ j :: is := by
          rw [List.mem_cons, not_or]
          exact ⟨Ne.symm hij, his⟩
        rw [if_neg his, if_neg hij, if_neg hmem]

structure Mirrors (b : PixelBuffer) (r : Resolution) (m : Memory) : Prop where
  side : b.side = r.side.toNat
  size : b.pixels.size = r.cells.toNat
  pixel : ∀ i < r.cells, b.pixels[i.toNat]? = some (m.peek (r.base + i) &&& 0x0F)

theorem mirrors_draw (hside : b.side = r.side.toNat) (hsize : b.pixels.size = r.cells.toNat)
    {is : List UInt16} {color : UInt16 → UInt8} (his : ∀ i < r.cells, i ∈ is)
    (hcolor : ∀ i, color i = m.peek (r.base + i) &&& 0x0F) :
    (b.draw (is.map fun i ↦ .pixel i (color i)).toArray).Mirrors r m := by
  obtain ⟨hside', hsize', hpixel⟩ := b.draw_pixels is color
  refine ⟨hside'.trans hside, hsize'.trans hsize, ?_⟩
  intro i hi
  have hlt : i.toNat < b.pixels.size := by
    rw [hsize]
    exact UInt16.lt_iff_toNat_lt.1 hi
  rw [hpixel i hlt, if_pos (his i hi), hcolor]

namespace Mirrors

variable (h : b.Mirrors r m)
include h

theorem of_peek (hpeek : ∀ a, m'.peek a = m.peek a) : b.Mirrors r m' := by
  refine ⟨h.side, h.size, ?_⟩
  intro i hi
  rw [hpeek]
  exact h.pixel i hi

theorem write (a : UInt16) (v : UInt8) :
    (b.set (a - r.base) (v &&& 0x0F)).Mirrors r (m.write a v) := by
  refine ⟨h.side, Array.size_setIfInBounds.trans h.size, ?_⟩
  intro i hi
  have hlt : i.toNat < b.pixels.size := by
    rw [h.size]
    exact UInt16.lt_iff_toNat_lt.1 hi
  have hcell : a - r.base = i ↔ a = r.base + i := by
    rw [UInt16.sub_eq_iff_eq_add, UInt16.add_comm]
  rw [pixels_set b _ i _ hlt, Memory.peek_write, h.pixel i hi]
  by_cases hai : a = r.base + i
  · rw [if_pos (hcell.2 hai), if_pos hai]
  · rw [if_neg (mt hcell.1 hai), if_neg hai]

theorem write_elsewhere (ha : r.range.contains a = false) (v : UInt8) :
    b.Mirrors r (m.write a v) := by
  refine ⟨h.side, h.size, ?_⟩
  intro i hi
  have hne : a ≠ r.base + i := by
    intro hai
    apply Bool.eq_false_iff.1 ha
    rw [Resolution.contains_range, hai, UInt16.add_comm, UInt16.add_sub_cancel]
    exact hi
  rw [Memory.peek_write, if_neg hne]
  exact h.pixel i hi

theorem get_eq (x y : UInt16) : b.get x y = if x < r.side ∧ y < r.side
    then some (m.peek (r.base + (y * r.side + x)) &&& 0x0F) else none := by
  rw [get, h.side]
  by_cases hxy : x < r.side ∧ y < r.side
  · obtain ⟨hx, hy⟩ := hxy
    have hoffset := Resolution.toNat_offset hx hy
    have hlt : y * r.side + x < r.cells := by
      rw [UInt16.lt_iff_toNat_lt, hoffset]
      exact Resolution.offset_lt hx hy
    rw [if_pos ⟨UInt16.lt_iff_toNat_lt.1 hx, UInt16.lt_iff_toNat_lt.1 hy⟩, if_pos ⟨hx, hy⟩,
      ← hoffset, h.pixel _ hlt]
  · rw [if_neg hxy, if_neg]
    intro hlt
    exact hxy ⟨UInt16.lt_iff_toNat_lt.2 hlt.1, UInt16.lt_iff_toNat_lt.2 hlt.2⟩

end Mirrors

end PixelBuffer

namespace Memory

variable {m : Memory} {r : Resolution} {before : Array Call}

/-- A display is attached that was blank when it got its first call, and the calls since then have
made a picture of its cells. -/
structure Shows (m : Memory) (r : Resolution) (before : Array Call) : Prop where
  attached : m.writeHook = some ⟨r.range, .display⟩
  drawn : ∃ later, m.calls = before ++ later ∧ ((PixelBuffer.blank r).draw later).Mirrors r m

theorem callOf_display (h : m.writeHook = some ⟨r.range, .display⟩) (a : UInt16) (v : UInt8) :
    m.callOf (a, v) =
      if r.range.contains a then some (.pixel (a - r.base) (v &&& 0x0F)) else none := by
  rw [callOf, h]
  rfl

theorem Shows.read (h : m.Shows r before) (a : UInt16) : (m.read a).2.Shows r before := by
  obtain ⟨later, hlater, hmirrors⟩ := h.drawn
  rw [read_eq]
  cases m.readHook with
  | none => exact h
  | some k =>
    by_cases ha : k.range.contains a = true
    · simp only [if_pos ha, consult_eq]
      refine ⟨h.attached, later ++ k.callsOf a, ?_, ?_⟩
      · rw [hlater, Array.append_assoc]
      · rw [PixelBuffer.draw_append, PixelBuffer.draw_callsOf]
        exact hmirrors.of_peek fun b ↦ rfl
    · simp only [if_neg ha]
      exact h

theorem Shows.write (h : m.Shows r before) (a : UInt16) (v : UInt8) :
    (m.write a v).Shows r before := by
  obtain ⟨hattached, later, hlater, hmirrors⟩ := h
  have hcall := callOf_display hattached a v
  refine ⟨(m.writeHook_write a v).trans hattached, later ++ (m.callOf (a, v)).toArray, ?_, ?_⟩
  · rw [calls_write, hlater, Array.append_assoc]
  · rw [PixelBuffer.draw_append, hcall]
    cases ha : r.range.contains a with
    | true => exact hmirrors.write a v
    | false => exact hmirrors.write_elsewhere ha v

theorem Shows.resetNotifying (h : m.Shows r before) : m.resetNotifying.Shows r before := by
  obtain ⟨hattached, later, hlater, hmirrors⟩ := h
  let offsets := r.range.addresses.map (· - r.base)
  have hoffsets : ∀ i < r.cells, i ∈ offsets := by
    intro i hi
    have hi' : r.base + i - r.base = i := by
      rw [UInt16.add_comm, UInt16.add_sub_cancel]
    have hrange : r.range.contains (r.base + i) = true := by
      rw [Resolution.contains_range, hi']
      exact hi
    exact List.mem_map.2 ⟨r.base + i, r.range.mem_addresses.2 hrange, hi'⟩
  have htold : r.range.addresses.filterMap (fun a ↦ m.callOf (a, 0)) =
      offsets.map fun i ↦ .pixel i 0 := by
    rw [List.map_map, ← List.filterMap_eq_map]
    refine List.filterMap_congr ?_
    intro a ha
    rw [callOf_display hattached, if_pos (r.range.mem_addresses.1 ha)]
    rfl
  have hreset := m.resetNotifying_eq hattached
  refine ⟨?_, later ++ (offsets.map fun i ↦ .pixel i 0).toArray, ?_, ?_⟩
  · rw [hreset]
    exact hattached
  · rw [hreset, htold, hlater, Array.append_assoc]
  · rw [PixelBuffer.draw_append]
    refine PixelBuffer.mirrors_draw hmirrors.side hmirrors.size hoffsets ?_
    intro i
    rw [peek_resetNotifying]
    rfl

theorem lasting_shows (r : Resolution) (before : Array Call) :
    Lasting fun m ↦ m.Shows r before where
  read a h := h.read a
  write a v h := h.write a v
  resetNotifying h := h.resetNotifying
  readHook _ h := by
    obtain ⟨hattached, later, hlater, hmirrors⟩ := h
    exact ⟨hattached, later, hlater, hmirrors.of_peek fun _ ↦ rfl⟩

theorem shows_refreshed (m : Memory) (r : Resolution) :
    ((m.refreshDisplay r).attachDisplay r).Shows r m.calls := by
  have hattach : (m.refreshDisplay r).attachDisplay r =
      { m.refreshDisplay r with writeHook := some ⟨r.range, .display⟩ } :=
    if_neg (Bool.eq_false_iff.1 Resolution.isEmpty_range)
  rw [hattach]
  refine ⟨rfl, (r.offsets.map fun i ↦ .pixel i (colorOf (m.peek (r.base + i)))).toArray, ?_, ?_⟩
  · exact List.foldl_push_eq_append
  · refine PixelBuffer.mirrors_draw rfl Array.size_replicate ?_ fun _ ↦ rfl
    intro i hi
    exact Resolution.mem_offsets.2 hi

end Memory

namespace Machine

/-- What may be done to a machine while its display is to show its memory. Its host can reach
everything, but it does not put another watcher in place of the display, and does not zero memory
unseen. -/
inductive ShownAction where
  | operate (a : Action) (keeps : a.keepsWatcher = true)
  | setProcessor (s : Processor)
  | write (a : UInt16) (v : UInt8)
  | load (a : UInt16) (vs : List UInt8)
  | resetNotifying
  | clearDisplay (r : Resolution)

def actShown (m : Machine) : ShownAction → Machine
  | .operate a _ => m.act a
  | .setProcessor s => { m with processor := s }
  | .write a v => { m with memory := m.memory.write a v }
  | .load a vs => { m with memory := m.memory.load a vs }
  | .resetNotifying => { m with memory := m.memory.resetNotifying }
  | .clearDisplay r => { m with memory := m.memory.clearDisplay r }

variable {m : Machine} {P : Memory → Prop}

theorem memory_actShown (hP : Memory.Lasting P) (h : P m.memory) (a : ShownAction) :
    P (m.actShown a).memory := by
  cases a with
  | operate a keeps => exact hP.act keeps h
  | setProcessor s => exact h
  | write a v => exact hP.write a v h
  | load a vs => exact hP.toStable.load a vs h
  | resetNotifying => exact hP.resetNotifying h
  | clearDisplay r => exact hP.toStable.clearDisplay r h

theorem memory_foldl_actShown (hP : Memory.Lasting P) (h : P m.memory) (as : List ShownAction) :
    P (as.foldl actShown m).memory := by
  induction as generalizing m with
  | nil => exact h
  | cons a as ih => exact ih (memory_actShown hP h a)

/-- The picture of a display that was attached blank shows the low four bits of each cell as it is
stored. -/
theorem display_mirrors (m : Machine) (r : Resolution) (as : List ShownAction) (x y : UInt16) :
    let memory := (as.foldl actShown (m.setDisplay r)).memory
    let shown := (PixelBuffer.blank r).draw (memory.calls.extract m.memory.calls.size)
    shown.get x y = if x < r.side ∧ y < r.side
      then some (memory.peek (r.base + (y * r.side + x)) &&& 0x0F) else none := by
  intro memory shown
  have hshows : memory.Shows r m.memory.calls :=
    memory_foldl_actShown (Memory.lasting_shows r _) (m.memory.shows_refreshed r) as
  obtain ⟨later, hlater, hmirrors⟩ := hshows.drawn
  have hextract : memory.calls.extract m.memory.calls.size = later := by
    rw [hlater]
    simp
  have hshown : shown.Mirrors r memory := by
    rw [← hextract] at hmirrors
    exact hmirrors
  exact hshown.get_eq x y

end Machine

end Micro6502
