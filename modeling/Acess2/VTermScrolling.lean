import Acess2.VTermOutput

/-! What a scroll does to the text, row by row. Upwards it concerns the region alone. Downwards the
rows that are cleared are the first of the buffer, which are those of the region only where the
region begins with the buffer. -/
namespace VTermScrolling

open BufferCopies Nat TotalTriples VTermBounds VTermBuffer VTermOutput Vt100

variable {g : Screen} {shown : Bool} {t : VTerm} {top height n row col k : ℕ} {count : ℤ}

def cellAt (g : Screen) (b : ℕ → Cell) (row col : ℕ) : Cell := b (g.textWidth * row + col)

/-- The rows from `top` on, `height` of them, moved by `count` and blank where nothing came -/
def scrolledCell (g : Screen) (t : VTerm) (top height : ℕ) (count : ℤ) (row col : ℕ) : Cell :=
  let n := min count.natAbs height
  if row < top ∨ top + height ≤ row then cellAt g t.buffer row col
  else if 0 < count then
    if row + n < top + height then cellAt g t.buffer (row + n) col else t.blank
  else if top + n ≤ row then cellAt g t.buffer (row - n) col else t.blank

/-- The region of `VT_int_ScrollText`, within the buffer -/
structure Region (g : Screen) (t : VTerm) (top height : ℕ) : Prop where
  top_eq : (if t.alt then t.scrollTop else 0) = top
  height_eq : (if t.alt then t.scrollHeight else (g.rows t.alt : ℤ)) = height
  inside : top + height ≤ g.rows t.alt

theorem cell_lt_iff (hcol : col < g.textWidth) :
    g.textWidth * row + col < g.textWidth * k ↔ row < k := by
  constructor
  · intro h
    exact Nat.lt_of_mul_lt_mul_left (show g.textWidth * row < g.textWidth * k by omega)
  · intro h
    have hmul := Nat.mul_le_mul_left g.textWidth h
    rw [Nat.mul_succ] at hmul
    omega

theorem cellAt_memcpy {b src : ℕ → Cell} (hcol : col < g.textWidth) :
    cellAt g (memcpy b (g.textWidth * k) (g.textWidth * n) src) row col =
      if k ≤ row ∧ row < k + n then cellAt g src (row - k) col else cellAt g b row col := by
  have hlow : g.textWidth * k ≤ g.textWidth * row + col ↔ k ≤ row := by
    rw [← Nat.not_lt, cell_lt_iff hcol, Nat.not_lt]
  have hindex (h : k ≤ row) :
      g.textWidth * row + col - g.textWidth * k = g.textWidth * (row - k) + col := by
    have hmul := Nat.mul_le_mul_left g.textWidth h
    rw [Nat.mul_sub]
    omega
  simp only [cellAt, memcpy, ← Nat.mul_add, hlow, cell_lt_iff hcol]
  split_ifs with h
  · rw [hindex h.1]
  · rfl

theorem cellAt_behind {b : ℕ → Cell} :
    cellAt g (behind b (g.textWidth * k)) row col = cellAt g b (k + row) col := by
  rw [cellAt, behind, cellAt, mul_add, add_assoc]

theorem cellAt_raised (hcol : col < g.textWidth) (hn : n ≤ height) :
    cellAt g (raised g t top height n) row col =
      if row < top ∨ top + height ≤ row then cellAt g t.buffer row col
      else if row + n < top + height then cellAt g t.buffer (row + n) col else t.blank := by
  rw [raised, ← mul_add, ← mul_add, cellAt_memcpy hcol, cellAt_memcpy hcol, cellAt_behind]
  split_ifs <;> first | rfl | omega | (congr 1; omega)

theorem cellAt_lowered (hcol : col < g.textWidth) (hn : n ≤ height) :
    cellAt g (lowered g t top height n) row col = if row < n then t.blank
      else if top + n ≤ row ∧ row < top + height then cellAt g t.buffer (row - n) col
      else cellAt g t.buffer row col := by
  have hzero : (0 : ℕ) = g.textWidth * 0 := (mul_zero _).symm
  rw [lowered, ← mul_add, hzero, cellAt_memcpy hcol, cellAt_memcpy hcol, cellAt_behind]
  split_ifs <;> first | rfl | omega | (congr 1; omega)

/-- Within the region the text is moved and blanked, and nothing else changes. -/
def ScrollsRegion (g : Screen) (shown : Bool) (t : VTerm) (top height : ℕ) (count : ℤ) : Prop :=
  ∃ b, scrollText g shown t count = .ok (t.setBuffer b) ∧
    ∀ row col, col < g.textWidth → cellAt g b row col = scrolledCell g t top height count row col

theorem Region.setBuffer (h : Region g t top height) (b : ℕ → Cell) :
    Region g (t.setBuffer b) top height := by
  obtain ⟨htop, hheight, hinside⟩ := h
  cases halt : t.alt <;> simp only [halt] at htop hheight hinside <;>
    exact ⟨by simp [VTerm.setBuffer, halt, ← htop], by simp [VTerm.setBuffer, halt, ← hheight],
      by simpa [halt] using hinside⟩

theorem scrollsRegion_iff (hregion : Region g t top height) (hcount : count ≠ intMin) :
    ScrollsRegion g shown t top height count ↔
      UpdatesInside g shown t top (min count.natAbs height) count ∧
        ∀ row col, col < g.textWidth → cellAt g (scrolledText g t top height count) row col =
          scrolledCell g t top height count row col := by
  have hok (u : VTerm) : scrollText g shown t count = .ok u ↔ _ :=
    scrollText_ok_iff hregion.top_eq hregion.height_eq hregion.inside hcount
  constructor
  · rintro ⟨b, hb, hcells⟩
    obtain ⟨hshow, heq⟩ := (hok _).mp hb
    have hbuffer : b = scrolledText g t top height count := by
      simpa using congrArg VTerm.buffer heq
    exact ⟨hshow, hbuffer ▸ hcells⟩
  · rintro ⟨hshow, hcells⟩
    exact ⟨_, (hok _).mpr ⟨hshow, rfl⟩, hcells⟩

theorem scrolledText_cell (hdir : 0 < count ∨ top = 0 ∨ min count.natAbs height = 0)
    (hcol : col < g.textWidth) : cellAt g (scrolledText g t top height count) row col =
      scrolledCell g t top height count row col := by
  rw [scrolledText, scrolledCell]
  by_cases hpos : 0 < count
  · simp only [if_pos hpos]
    exact cellAt_raised hcol (min_le_right ..)
  · simp only [if_neg hpos, cellAt_lowered hcol (min_le_right ..)]
    split_ifs <;> first | rfl | omega

/-- Whatever the text is, the scroll concerns the region alone exactly if it is upwards, or the
region begins with the buffer, or there is nothing to move; and if the rows that are then shown are
in the buffer. -/
theorem region_scrolled (hregion : Region g t top height) :
    (∀ b, ScrollsRegion g shown (t.setBuffer b) top height count) ↔
      count ≠ intMin ∧ (0 < count ∨ top = 0 ∨ min count.natAbs height = 0) ∧
        UpdatesInside g shown t top (min count.natAbs height) count := by
  have hshow (b : ℕ → Cell) : UpdatesInside g shown (t.setBuffer b) top (min count.natAbs height)
      count ↔ UpdatesInside g shown t top (min count.natAbs height) count := by
    simp only [UpdatesInside, setBuffer_alt, setBuffer_viewTopRow]
  constructor
  · intro h
    have hcount : count ≠ intMin := by
      rintro rfl
      obtain ⟨b, hb, -⟩ := h t.buffer
      simp [scrollText, scrollRegion, intMin, bind_ok_iff] at hb
    have hiff (b : ℕ → Cell) := (scrollsRegion_iff (hregion.setBuffer b) hcount).mp (h b)
    refine ⟨hcount, ?_, (hshow t.buffer).mp (hiff t.buffer).1⟩
    by_contra hdir
    simp only [not_or, Nat.min_eq_zero_iff] at hdir
    obtain ⟨hneg, htop, hn⟩ := hdir
    -- the first cell of the buffer is above the region, and is cleared
    have hcell := (hiff fun _ => ⟨1, 0⟩).2 0 0 g.width_pos
    rw [scrolledText, if_neg hneg, cellAt_lowered g.width_pos (min_le_right ..), if_pos (by omega),
      scrolledCell, if_pos (.inl (by omega))] at hcell
    simp [cellAt, VTerm.blank] at hcell
  · rintro ⟨hcount, hdir, hinside⟩ b
    exact (scrollsRegion_iff (hregion.setBuffer b) hcount).mpr
      ⟨(hshow b).mpr hinside, fun row col => scrolledText_cell hdir⟩

def numbered : VTerm :=
  { fresh vga fun i => ⟨UInt32.ofNat i, 0⟩ with alt := true, scrollTop := 1, scrollHeight := 2 }

theorem numbered_scrolled : ScrollsRegion vga true (numbered.setBuffer numbered.altBuf) 1 2 1 :=
  (region_scrolled ⟨rfl, rfl, by decide⟩).mpr
    ⟨by decide, .inl (by decide), by unfold UpdatesInside; decide⟩ _

/-- Downwards, the row above the region is cleared and the first row of the region is not. -/
theorem row_above_cleared :
    ((scrollText vga true numbered (-1)).map fun u => [u.altBuf 0, u.altBuf 80, u.altBuf 160]) =
        .ok [numbered.blank, ⟨80, 0⟩, ⟨80, 0⟩] ∧
      [0, 1, 2].map (fun row => scrolledCell vga numbered 1 2 (-1) row 0) =
        [⟨0, 0⟩, numbered.blank, ⟨80, 0⟩] := by
  constructor
  · decide +kernel
  · decide

end VTermScrolling
