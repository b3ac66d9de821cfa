import Acess2.VTermBuffer

/-! The cells of its buffers that a request to a virtual terminal touches.
For each function there is the condition under which it stays inside the buffer, and under that
condition it returns, with the terminal as sound as it was. -/
namespace VTermBounds

open BufferCopies MachineWords TotalTriples Vt100 VTermBuffer Nat

variable {g : Screen} {shown checked : Bool} {t u : VTerm} {i n : ℕ}

theorem assertc_eq {p : Prop} [Decidable p] (h : p) : assertc p = .ok () := if_pos h

theorem returns_assertc {p : Prop} [Decidable p] (h : p) : Returns (assertc p) fun _ => True :=
  ⟨(), assertc_eq h, trivial⟩

theorem returns_readCell (h : i < g.limit t.alt) : Returns (readCell g t i) (· = t.buffer i) := by
  rw [readCell, if_pos h]
  exact returns_ok rfl

theorem returns_writeCell {c : Cell} (h : i < g.limit t.alt) :
    Returns (writeCell g t i c) (Rewritten t) := by
  rw [writeCell, if_pos h]
  exact returns_ok rewritten_setBuffer

theorem clearCells_eq (h : i + n ≤ g.limit t.alt) :
    clearCells g checked n i t = .ok (t.setBuffer (memcpy t.buffer i n fun _ => t.blank)) := by
  induction n generalizing i t with
  | zero => rw [clearCells, memcpy_zero, setBuffer_self]
  | succ n ih =>
    have hi : i < g.limit t.alt := by omega
    have hcells : memcpy (Function.update t.buffer i t.blank) (i + 1) n (fun _ => t.blank) =
        memcpy t.buffer i (n + 1) fun _ => t.blank := by
      funext j
      simp only [memcpy, Function.update_apply]
      split_ifs <;> first | rfl | omega
    simp only [clearCells, assertc, writeCell, if_pos hi, if_pos (fun _ => hi : checked = true → _)]
    refine (ih (by rw [setBuffer_alt]; omega)).trans ?_
    simp only [buffer_setBuffer, setBuffer_blank, setBuffer_setBuffer, hcells]

theorem returns_clearCells (h : i + n ≤ g.limit t.alt) :
    Returns (clearCells g checked n i t) (Rewritten t) := by
  rw [clearCells_eq h]
  exact returns_ok rewritten_setBuffer

variable {alt : Bool}

theorem bytes_lt (h : n ≤ g.limit alt) : n * 8 < 2 ^ g.sizeBits := by
  have hbytes := g.bytes
  have hle : g.limit alt ≤ (g.scrollback + 1) * g.textHeight * g.textWidth := by
    cases alt with
    | false => exact le_rfl
    | true => exact mul_le_mul_right _ (mul_le_mul_right _ (succ_le_succ (zero_le _)))
  omega

theorem moveCells_eq {dst src len : ℕ} (hdst : dst + len ≤ g.limit t.alt)
    (hsrc : src + len ≤ g.limit t.alt) :
    moveCells g t dst src len =
      .ok (t.setBuffer (memcpy t.buffer dst len (behind t.buffer src))) := by
  have hn : len * 8 % 2 ^ g.sizeBits / 8 = len := by
    rw [mod_eq_of_lt (bytes_lt (show len ≤ g.limit t.alt by omega)),
      Nat.mul_div_cancel _ (by decide)]
  simp only [moveCells, hn]
  exact if_pos (.inr ⟨hdst, hsrc⟩)

theorem ushort_le (x : ℕ) : ushort x ≤ x := toWord_le 16 x

theorem ushort_le_of_nonneg {x : ℤ} (h : 0 ≤ x) : (ushort x : ℤ) ≤ x := toWord_le_of_nonneg h

theorem ushort_add (x y : ℤ) : ushort (ushort x + y) = ushort (x + y) := by
  have hnonneg := Int.emod_nonneg x (show (2 : ℤ) ^ 16 ≠ 0 by decide)
  rw [ushort, ushort, ushort, toWord, toWord, toWord, Int.toNat_of_nonneg hnonneg,
    Int.emod_add_emod]

theorem row_end_le_iff {row : ℕ} :
    row * g.textWidth + g.textWidth ≤ g.limit alt ↔ row < g.rows alt := by
  rw [← succ_mul, Screen.limit]
  exact Nat.mul_le_mul_right_iff g.width_pos

theorem updateLine_iff : updateScreen g shown t false = .ok () ↔
    (shown = true → t.pos.row < g.rows t.alt) := by
  cases shown with
  | false => simp [updateScreen]
  | true => simp [updateScreen, readCells, g.width_pos.ne', row_end_le_iff]

theorem returns_updateLine (h : shown = true → t.pos.row < g.rows t.alt) :
    Returns (updateScreen g shown t false) fun _ => True := ⟨(), updateLine_iff.mpr h, trivial⟩

def ViewInside (g : Screen) (t : VTerm) : Prop := t.viewTopRow + g.textHeight ≤ g.rows false

theorem returns_updateAll (h : shown = true → t.alt = false → ViewInside g t) :
    Returns (updateScreen g shown t true) fun _ => True := by
  cases shown with
  | false => exact returns_ok trivial
  | true =>
    simp only [updateScreen, readCells, Bool.not_true, Bool.false_eq_true, if_false, if_true]
    apply returns_ite
    · exact fun _ => returns_ok trivial
    · intro hout
      refine absurd (.inr ?_) hout
      cases halt : t.alt with
      | true =>
        simp only [if_true, Screen.limit, Screen.rows, one_mul, zero_add]
        rw [mul_comm]
      | false =>
        have hmul := mul_le_mul_right g.textWidth (h rfl halt)
        have hmod := mod_le (t.viewTopRow * g.textWidth) (2 ^ g.sizeBits)
        rw [add_mul, mul_comm g.textHeight] at hmul
        simp only [Bool.false_eq_true, if_false, Screen.limit]
        omega

/-- The rows are counted in an unsigned short. -/
theorem showRows_ok_iff {down col : ℕ} {row : ℤ} :
    showRows g shown down n (t.setPos ⟨ushort row, col⟩) = .ok u ↔
      (shown = true → ∀ i < n, ushort (row + i * down) < g.rows t.alt) ∧
        u = t.setPos ⟨ushort (row + n * down), col⟩ := by
  induction n generalizing row with
  | zero => simp [showRows, eq_comm]
  | succ n ih =>
    have hnext (i : ℕ) : row + down + i * down = row + (i + 1 : ℕ) * down := by
      rw [cast_add, Int.add_mul, cast_one, Int.one_mul]
      omega
    rw [showRows, bind_ok_iff]
    simp only [Unique.exists_iff, PUnit.default_eq_unit, updateLine_iff, setPos_pos, setPos_alt,
      setPos_setPos,
      ushort_add, ih, hnext, forall_lt_succ_left, cast_zero, zero_mul, add_zero]
    tauto

variable {top height count : ℕ}

theorem toWord_rows (h : g.textWidth * n ≤ g.limit alt) :
    toWord g.sizeBits ((g.textWidth : ℤ) * n) = g.textWidth * n := by
  have hlt := bytes_lt h
  rw [← cast_mul, toWord_of_lt (by omega)]

theorem region_end_le (h : top + height ≤ g.rows alt) :
    g.textWidth * top + g.textWidth * height ≤ g.limit alt := by
  have hmul := mul_le_mul_left g.textWidth h
  rwa [mul_add, mul_comm _ (g.rows alt)] at hmul

def raised (g : Screen) (t : VTerm) (top height count : ℕ) : ℕ → Cell :=
  memcpy (memcpy t.buffer (g.textWidth * top) (g.textWidth * (height - count))
      (behind t.buffer (g.textWidth * top + g.textWidth * count)))
    (g.textWidth * top + g.textWidth * (height - count)) (g.textWidth * count) fun _ => t.blank

def lowered (g : Screen) (t : VTerm) (top height count : ℕ) : ℕ → Cell :=
  memcpy (memcpy t.buffer (g.textWidth * top + g.textWidth * count) (g.textWidth * (height - count))
      (behind t.buffer (g.textWidth * top))) 0 (g.textWidth * count) fun _ => t.blank

section Region

variable (hregion : top + height ≤ g.rows t.alt) (hcount : count ≤ height)
include hregion hcount

theorem region_split : g.textWidth * height = g.textWidth * count + g.textWidth * (height - count) ∧
    g.textWidth * top + g.textWidth * height ≤ g.limit t.alt ∧
    (g.textWidth * top + g.textWidth * height) * 8 < 2 ^ g.sizeBits := by
  have hend := region_end_le hregion
  refine ⟨?_, hend, bytes_lt hend⟩
  rw [← Nat.mul_add, Nat.add_sub_cancel' hcount]

theorem scrollUp_ok_iff {row : ℤ}
    (hrow : row = if t.alt then (top : ℤ) else t.viewTopRow + (g.textHeight - count)) :
    scrollUp g shown t top height count = .ok u ↔
      (shown = true → ∀ i < count, ushort (row + i) < g.rows t.alt) ∧
        u = (t.setBuffer (raised g t top height count)).setPos
          ⟨ushort (row + count), t.pos.col⟩ := by
  obtain ⟨hsplit, hend, hbytes⟩ := region_split hregion hcount
  have hlen := toWord_rows (show g.textWidth * (height - count) ≤ g.limit t.alt by omega)
  rw [cast_sub hcount] at hlen
  simp only [scrollUp, toWord_rows (show g.textWidth * count ≤ g.limit t.alt by omega),
    toWord_rows (show g.textWidth * top ≤ g.limit t.alt by omega), hlen]
  rw [mod_eq_of_lt (by omega), mod_eq_of_lt (by omega), mod_eq_of_lt (by omega),
    bind_of_eq (assertc_eq (by omega)), bind_of_eq (moveCells_eq (by omega) (by omega)),
    bind_of_eq (clearCells_eq (by rw [setBuffer_alt]; omega))]
  simp only [buffer_setBuffer, setBuffer_setBuffer, setBuffer_blank, setBuffer_alt,
    setBuffer_viewTopRow, setBuffer_pos, Int.toNat_natCast, ← hrow, showRows_ok_iff, cast_one,
    mul_one]
  rfl

theorem scrollBack_ok_iff {row : ℤ} (hrow : row = if t.alt then (top : ℤ) else t.viewTopRow) :
    scrollBack g shown t top height count = .ok u ↔
      (shown = true → ∀ i < count, ushort row < g.rows t.alt) ∧
        u = (t.setBuffer (lowered g t top height count)).setPos ⟨ushort row, t.pos.col⟩ := by
  obtain ⟨hsplit, hend, hbytes⟩ := region_split hregion hcount
  have hlen : toWord g.sizeBits ((g.textWidth : ℤ) * height - (g.textWidth * count : ℕ)) =
      g.textWidth * (height - count) := by
    rw [← cast_mul, ← cast_sub (by omega), toWord_of_lt (by omega)]
    omega
  simp only [scrollBack, toWord_rows (show g.textWidth * count ≤ g.limit t.alt by omega),
    toWord_rows (show g.textWidth * top ≤ g.limit t.alt by omega), hlen]
  rw [mod_eq_of_lt (by omega), mod_eq_of_lt (by omega),
    bind_of_eq (assertc_eq (by omega)), bind_of_eq (moveCells_eq (by omega) (by omega)),
    bind_of_eq (clearCells_eq (by rw [setBuffer_alt]; omega))]
  simp only [buffer_setBuffer, setBuffer_setBuffer, setBuffer_blank, setBuffer_alt,
    setBuffer_viewTopRow, setBuffer_pos, Int.toNat_natCast, ← hrow, showRows_ok_iff, cast_zero,
    mul_zero, add_zero]
  rfl

end Region

def scrolledText (g : Screen) (t : VTerm) (top height : ℕ) (count : ℤ) : ℕ → Cell :=
  if 0 < count then raised g t top height (min count.natAbs height)
  else lowered g t top height (min count.natAbs height)

/-- The `n` rows that are updated after a scroll are in the buffer. -/
def UpdatesInside (g : Screen) (shown : Bool) (t : VTerm) (top n : ℕ) (count : ℤ) : Prop :=
  shown = true → ∀ i < n,
    if 0 < count then
      ushort ((if t.alt then (top : ℤ) else t.viewTopRow + (g.textHeight - n)) + i) < g.rows t.alt
    else ushort (if t.alt then top else t.viewTopRow) < g.rows t.alt

theorem scrollText_ok_iff {count : ℤ} (htop : (if t.alt then t.scrollTop else 0) = top)
    (hheight : (if t.alt then t.scrollHeight else (g.rows t.alt : ℤ)) = height)
    (hregion : top + height ≤ g.rows t.alt) (hcount : count ≠ intMin) :
    scrollText g shown t count = .ok u ↔
      UpdatesInside g shown t top (min count.natAbs height) count ∧
        u = t.setBuffer (scrolledText g t top height count) := by
  have hback (b : ℕ → Cell) (p : Pos) :
      ((t.setBuffer b).setPos p).setPos t.pos = t.setBuffer b := by
    rw [setPos_setPos, ← setBuffer_pos, setPos_self]
  simp only [scrollText, htop, hheight, bind_ok_iff, scrollRegion, scrolledText, UpdatesInside]
  by_cases hpos : 0 < count
  · have hn : min count height = ((min count.natAbs height : ℕ) : ℤ) := by omega
    simp only [if_pos hpos, hn, scrollUp_ok_iff hregion (Nat.min_le_right ..) rfl, and_assoc,
      exists_and_left, exists_eq_left, hback, Except.ok.injEq, @eq_comm _ _ u]
  · have hn : min (-count) height = ((min count.natAbs height : ℕ) : ℤ) := by omega
    simp only [if_neg hpos, if_neg hcount, hn, scrollBack_ok_iff hregion (Nat.min_le_right ..) rfl,
      and_assoc, exists_and_left, exists_eq_left, hback, Except.ok.injEq, @eq_comm _ _ u]

def RegionInside (g : Screen) (t : VTerm) : Prop :=
  0 ≤ t.scrollTop ∧ 0 ≤ t.scrollHeight ∧ t.scrollTop + t.scrollHeight ≤ g.textHeight

theorem rows_alt (g : Screen) : g.rows true = g.textHeight := by
  rw [Screen.rows, if_pos rfl, one_mul]

theorem returns_scrollText_alt {count : ℤ} (halt : t.alt = true) (hregion : RegionInside g t)
    (hcount : intMin < count) : Returns (scrollText g shown t count) (Rewritten t) := by
  obtain ⟨htop, hheight, hsum⟩ := hregion
  obtain ⟨top, htop⟩ := Int.eq_ofNat_of_zero_le htop
  obtain ⟨height, hheight⟩ := Int.eq_ofNat_of_zero_le hheight
  have hinside : top + height ≤ g.rows t.alt := by
    rw [halt, rows_alt]
    omega
  have hshow : UpdatesInside g shown t top (min count.natAbs height) count := by
    intro _ i hi
    have hle : (ushort top : ℤ) ≤ top := ushort_le_of_nonneg (by omega)
    have hle_add : (ushort (top + i) : ℤ) ≤ top + i := ushort_le_of_nonneg (by omega)
    simp only [if_pos halt]
    split_ifs <;> omega
  have hscroll := (scrollText_ok_iff (by rw [if_pos halt, htop]) (by rw [if_pos halt, hheight])
    hinside hcount.ne').mpr ⟨hshow, rfl⟩
  exact ⟨_, hscroll, rewritten_setBuffer⟩

theorem returns_scrollText_main (halt : t.alt = false) (hview : shown = true → ViewInside g t) :
    Returns (scrollText g shown t 1) (Rewritten t) := by
  have hrows : 0 < g.rows false := Nat.mul_pos (Nat.succ_pos _) g.height_pos
  have hshow : UpdatesInside g shown t 0 (min (1 : ℤ).natAbs (g.rows t.alt)) 1 := by
    intro hs i hi
    have hpos := g.height_pos
    have hle : (ushort (t.viewTopRow + (g.textHeight - (1 : ℕ)) + i) : ℤ) ≤ _ :=
      ushort_le_of_nonneg (by omega)
    have hinside : t.viewTopRow + g.textHeight ≤ g.rows false := hview hs
    have hone : min (1 : ℤ).natAbs (g.rows false) = 1 := by omega
    simp only [halt, Int.zero_lt_one, Bool.false_eq_true, if_true, if_false, hone] at hi ⊢
    omega
  have hscroll := (scrollText_ok_iff (by simp [halt]) (by simp [halt]) (by omega)
    (by decide)).mpr ⟨hshow, rfl⟩
  exact ⟨_, hscroll, rewritten_setBuffer⟩

variable {p : Pos}

/-- A write position may be behind its row or below the last row, but not both. -/
structure Placed (g : Screen) (alt : Bool) (p : Pos) : Prop where
  row : p.row ≤ g.rows alt
  col : p.col ≤ g.textWidth
  corner : p.row = g.rows alt → p.col < g.textWidth

structure Sound (g : Screen) (t : VTerm) : Prop where
  main : Placed g false t.writePos
  alt : Placed g true t.altWritePos
  view : t.viewTopRow ≤ g.rows false

theorem rows_pos (g : Screen) (alt : Bool) : 0 < g.rows alt := by
  apply Nat.mul_pos _ g.height_pos
  split <;> exact Nat.succ_pos _

theorem rows_lt (g : Screen) : g.rows false < 2 ^ 31 := by
  have hmul := Nat.le_mul_of_pos_right (g.rows false) g.width_pos
  exact lt_of_le_of_lt hmul g.cells

theorem lt_sizeBits (g : Screen) {x : ℕ} (hx : x < 2 ^ 32) : x < 2 ^ g.sizeBits :=
  Nat.lt_of_lt_of_le hx (Nat.pow_le_pow_right (by omega) g.word)

theorem placed_of_lt (hrow : p.row < g.rows alt) (hcol : p.col ≤ g.textWidth) : Placed g alt p :=
  ⟨hrow.le, hcol, fun h => absurd h hrow.ne⟩

theorem Sound.pos (h : Sound g t) : Placed g t.alt t.pos := by
  cases halt : t.alt with
  | false => simpa [VTerm.pos, halt] using h.main
  | true => simpa [VTerm.pos, halt] using h.alt

theorem Sound.setPos (h : Sound g t) (hp : Placed g t.alt p) : Sound g (t.setPos p) := by
  cases halt : t.alt with
  | false =>
    rw [halt] at hp
    simpa [VTerm.setPos, halt] using ⟨hp, h.alt, h.view⟩
  | true =>
    rw [halt] at hp
    simpa [VTerm.setPos, halt] using ⟨h.main, hp, h.view⟩

theorem Sound.rewritten (h : Sound g t) (hu : Rewritten t u) : Sound g u := by
  obtain ⟨text, altBuf, rfl⟩ := hu
  exact { h with }

def nextRow (g : Screen) (t : VTerm) : ℕ :=
  if g.textWidth ≤ t.pos.col then ushort (t.pos.row + 1) else t.pos.row

def ScrollsInside (g : Screen) (shown : Bool) (t : VTerm) : Prop :=
  if t.alt then RegionInside g t else shown = true → ViewInside g t

theorem returns_scrollText_one (h : ScrollsInside g shown t) :
    Returns (scrollText g shown t 1) (Rewritten t) := by
  cases halt : t.alt with
  | false => exact returns_scrollText_main halt (by simpa [ScrollsInside, halt] using h)
  | true => exact returns_scrollText_alt halt (by simpa [ScrollsInside, halt] using h) (by decide)

structure Settled (g : Screen) (t : VTerm) : Prop where
  sound : Sound g t
  row : t.pos.row < g.rows t.alt
  col : t.pos.col < g.textWidth

theorem ScrollsInside.setPos (h : ScrollsInside g shown t) :
    ScrollsInside g shown (t.setPos p) := by
  cases halt : t.alt with
  | false => simpa [ScrollsInside, ViewInside, VTerm.setPos, halt] using h
  | true => simpa [ScrollsInside, RegionInside, VTerm.setPos, halt] using h

theorem returns_wrapLine (h : Sound g t) : Returns (wrapLine g shown t) fun u =>
      Sound g u ∧ u.pos.col < g.textWidth ∧ u.pos.row = nextRow g t ∧ ∃ p, u = t.setPos p := by
  rw [wrapLine]
  apply returns_ite
  · intro hwrap
    have hplaced := h.pos
    have hrow : t.pos.row < g.rows t.alt := by
      apply lt_of_le_of_ne hplaced.row
      exact fun hlast => absurd (hplaced.corner hlast) (by omega)
    have hnext : ushort ((t.pos.row : ℤ) + 1) ≤ t.pos.row + 1 := ushort_le (t.pos.row + 1)
    apply (returns_assertc hplaced.col).bind
    intro _ _
    apply (returns_updateLine fun _ => hrow).bind
    intro _ _
    apply returns_ok
    refine ⟨h.setPos ⟨?_, ?_, ?_⟩, ?_, ?_, _, rfl⟩
    · exact hnext.trans hrow
    · exact zero_le _
    · exact fun _ => g.width_pos
    · rw [setPos_pos]
      exact g.width_pos
    · rw [setPos_pos, nextRow, if_pos hwrap]
  · intro hfits
    exact returns_ok ⟨h, by omega, by rw [nextRow, if_neg hfits], t.pos, setPos_self.symm⟩

theorem returns_makeRow (h : Sound g t) (hcol : t.pos.col < g.textWidth)
    (hscroll : g.rows t.alt ≤ t.pos.row → ScrollsInside g shown t) :
    Returns (makeRow g shown t) fun u =>
      Sound g u ∧ u.pos.row < g.rows u.alt ∧ u.pos.col < g.textWidth := by
  rw [makeRow]
  apply returns_ite
  · intro hbelow
    have hplaced := h.pos
    have hpos := rows_pos g t.alt
    apply (returns_assertc (lt_succ_of_le hplaced.row)).bind
    intro _ _
    apply (returns_scrollText_one (hscroll hbelow)).bind
    intro u hu
    have hrow : ushort ((t.pos.row : ℤ) - 1) < g.rows t.alt := by
      have hle : (ushort ((t.pos.row : ℤ) - 1) : ℤ) ≤ _ := ushort_le_of_nonneg (by omega)
      have hrows := hplaced.row
      omega
    apply returns_ok
    rw [setPos_pos, setPos_alt, hu.pos_eq, hu.alt_eq]
    refine ⟨(h.rewritten hu).setPos ?_, hrow, hcol⟩
    rw [hu.alt_eq]
    exact placed_of_lt hrow hcol.le
  · intro hrow
    exact returns_ok ⟨h, by omega, hcol⟩

theorem settled_bringIntoView (h : Sound g t) (hrow : t.pos.row < g.rows t.alt)
    (hcol : t.pos.col < g.textWidth) : Settled g (bringIntoView g t) := by
  rw [bringIntoView]
  split_ifs with halt hbelow habove
  · exact ⟨h, hrow, hcol⟩
  · refine ⟨⟨h.main, h.alt, ?_⟩, hrow, hcol⟩
    have hview := h.view
    have hrows := rows_lt g
    have hshort := g.height_short
    have hpos := g.height_pos
    rw [mod_eq_of_lt (lt_sizeBits g (by omega))] at hbelow
    rw [Bool.not_eq_true] at halt
    rw [halt] at hrow
    have hle : (toWord g.sizeBits ((t.pos.row : ℤ) - (g.textHeight - 1)) : ℤ) ≤ _ :=
      toWord_le_of_nonneg (by omega)
    dsimp only
    omega
  · refine ⟨⟨h.main, h.alt, ?_⟩, hrow, hcol⟩
    exact habove.le.trans h.view
  · exact ⟨h, hrow, hcol⟩

theorem returns_settle (h : Sound g t)
    (hscroll : g.rows t.alt ≤ nextRow g t → ScrollsInside g shown t) :
    Returns (settle g shown t) (Settled g) := by
  rw [settle]
  apply (returns_wrapLine h).bind
  rintro u ⟨hsound, hcol, hrow, p, rfl⟩
  have hmake : g.rows (t.setPos p).alt ≤ (t.setPos p).pos.row →
      ScrollsInside g shown (t.setPos p) := by
    rw [setPos_alt, hrow]
    exact fun hbelow => (hscroll hbelow).setPos
  apply (returns_makeRow hsound hcol hmake).bind
  rintro v ⟨hv, hrow, hcol⟩
  exact returns_ok (settled_bringIntoView hv hrow hcol)

theorem Settled.writeIndex_lt (h : Settled g t) :
    writeIndex g t + (g.textWidth - t.pos.col) ≤ g.limit t.alt := by
  have hend := row_end_le_iff.mpr h.row
  have hcol := h.col
  rw [writeIndex]
  omega

variable {writePos : ℕ} {ch : UInt32}

theorem returns_putTab {col : ℕ} (hn : 0 < n)
    (hend : writePos + (g.textWidth - col) ≤ g.limit t.alt) (hcol : col < g.textWidth)
    (hleft : g.textWidth - col ≤ n) :
    Returns (putTab g n t writePos col) fun r => Rewritten t r.1 ∧ r.2 ≤ g.limit t.alt := by
  induction n generalizing t writePos col with
  | zero => omega
  | succ n ih =>
    rw [putTab]
    apply (returns_writeCell (by omega)).bind
    intro u hu
    apply returns_ite
    · rintro ⟨-, hnext⟩
      refine (ih (by omega) (by rw [hu.alt_eq]; omega) hnext (by omega)).mono fun r hr => ?_
      rw [hu.alt_eq] at hr
      exact ⟨hu.trans hr.1, hr.2⟩
    · intro _
      exact returns_ok ⟨hu, by omega⟩

theorem returns_eraseTab (hpos : 0 < writePos) (hend : writePos < g.limit t.alt) :
    Returns (eraseTab g n t writePos) fun r => Rewritten t r.1 ∧ r.2 < g.limit t.alt := by
  induction n generalizing t writePos with
  | zero =>
    rw [eraseTab]
    apply (returns_writeCell hend).bind
    intro u hu
    have hback := toWord_le_of_nonneg (w := g.sizeBits) (x := writePos - 1) (by omega)
    exact returns_ok ⟨hu, by omega⟩
  | succ n ih =>
    rw [eraseTab]
    apply (returns_writeCell hend).bind
    intro u hu
    have hback := toWord_le_of_nonneg (w := g.sizeBits) (x := writePos - 1) (by omega)
    generalize toWord g.sizeBits ((writePos : ℤ) - 1) = back at hback
    apply returns_ite
    · intro _
      exact returns_ok ⟨hu, by dsimp only; omega⟩
    · intro hne
      have hin : back < g.limit u.alt := by
        rw [hu.alt_eq]
        omega
      apply (returns_readCell hin).bind
      intro cell _
      apply returns_ite
      · intro _
        refine (ih (by omega) hin).mono fun r hr => ?_
        rw [hu.alt_eq] at hr
        exact ⟨hu.trans hr.1, hr.2⟩
      · intro _
        exact returns_ok ⟨hu, by dsimp only; omega⟩

def BackspaceInside (g : Screen) (t : VTerm) : Prop := writeIndex g t = 1 → (t.buffer 0).ch ≠ 0

def Written (g : Screen) (t : VTerm) (r : VTerm × ℕ) : Prop :=
  Sound g r.1 ∧ r.2 ≤ g.limit t.alt ∧ r.1.alt = t.alt

theorem returns_putBackspace (h : Settled g t) (hback : BackspaceInside g t) :
    Returns (putBackspace g t (writeIndex g t)) (Written g t) := by
  have hend := h.writeIndex_lt
  rw [putBackspace]
  apply returns_ite
  · intro hzero
    exact returns_ok ⟨h.sound, by omega, rfl⟩
  · intro hne
    have hin : writeIndex g t - 1 < g.limit t.alt := by omega
    apply (returns_readCell hin).bind
    rintro cell rfl
    apply returns_ite
    · intro _
      apply (returns_writeCell hin).bind
      intro u hu
      exact returns_ok ⟨h.sound.rewritten hu, by dsimp only; omega, hu.alt_eq⟩
    · intro hblank
      have hpos : 0 < writeIndex g t - 1 := by
        by_contra hfirst
        have hone : writeIndex g t = 1 := by omega
        rw [hone] at hblank
        exact hblank (hback hone)
      apply (returns_eraseTab hpos hin).bind
      rintro ⟨u, writePos⟩ ⟨hu, hlt⟩
      apply (returns_readCell (by rw [hu.alt_eq]; exact hlt)).bind
      intro cell _
      apply returns_ok
      refine ⟨(h.sound.rewritten hu).setPos ?_, ?_, ?_⟩
      · rw [hu.alt_eq, hu.pos_eq]
        exact placed_of_lt h.row (mod_lt _ g.width_pos).le
      · split_ifs <;> omega
      · rw [setPos_alt, hu.alt_eq]

theorem returns_putInPlace (h : Settled g t) (hback : ch = 0x08 → BackspaceInside g t) :
    Returns (putInPlace g shown t ch (writeIndex g t)) (Written g t) := by
  have hend := h.writeIndex_lt
  have hcol := h.col
  have hrow := h.row
  rw [putInPlace]
  apply returns_ite
  · intro _
    apply (returns_updateLine fun _ => hrow).bind
    intro _ _
    have hnext : ushort ((t.pos.row : ℤ) + 1) ≤ t.pos.row + 1 := ushort_le (t.pos.row + 1)
    apply returns_ok
    refine ⟨h.sound.setPos ⟨?_, ?_, ?_⟩, ?_, ?_⟩
    · exact hnext.trans hrow
    · exact zero_le _
    · exact fun _ => g.width_pos
    · omega
    · exact setPos_alt
  intro _
  apply returns_ite
  · intro _
    have hplaced : Placed g t.alt ⟨t.pos.row, 0⟩ := placed_of_lt hrow (zero_le _)
    exact returns_ok ⟨h.sound.setPos hplaced, by dsimp only; omega, setPos_alt⟩
  intro _
  apply returns_ite
  · intro _
    refine (returns_putTab (by omega) hend hcol le_rfl).mono fun r hr => ?_
    exact ⟨h.sound.rewritten hr.1, hr.2, hr.1.alt_eq⟩
  intro _
  apply returns_ite
  · exact fun hch => returns_putBackspace h (hback hch)
  intro _
  apply (returns_writeCell (by omega)).bind
  intro u hu
  have hline : u.pos.row < g.rows u.alt := by
    rw [hu.pos_eq, hu.alt_eq]
    exact hrow
  apply (returns_updateLine fun _ => hline).bind
  intro _ _
  have hnext : ushort ((t.pos.col : ℤ) + 1) ≤ t.pos.col + 1 := ushort_le (t.pos.col + 1)
  apply returns_ok
  refine ⟨(h.sound.rewritten hu).setPos ?_, ?_, ?_⟩
  · rw [hu.alt_eq, hu.pos_eq]
    exact placed_of_lt hrow (hnext.trans hcol)
  · omega
  · rw [setPos_alt, hu.alt_eq]

def CharInside (g : Screen) (shown : Bool) (t : VTerm) (ch : UInt32) : Prop :=
  (g.rows t.alt ≤ nextRow g t → ScrollsInside g shown t) ∧
    (ch = 0x08 → ∀ u, settle g shown t = .ok u → BackspaceInside g u)

theorem returns_putChar (h : Sound g t) (hch : CharInside g shown t ch) :
    Returns (putChar g shown t ch) (Sound g) := by
  obtain ⟨u, hsettle, hu⟩ := returns_settle h hch.1
  have hend := hu.writeIndex_lt
  have hcol := hu.col
  rw [putChar, hsettle]
  apply (returns_assertc (by omega)).bind
  intro _ _
  apply returns_ite
  · exact fun _ => returns_ok hu.sound
  · intro _
    apply (returns_putInPlace hu fun hback => hch.2 hback u hsettle).bind
    rintro ⟨v, writePos⟩ ⟨hv, hle, halt⟩
    apply (returns_assertc (by rw [halt]; exact hle)).bind
    exact fun _ _ => returns_ok hv

section Requests

variable {row col : ℤ}

theorem returns_clearLine : Returns (clearLine g t row) (Rewritten t) := by
  rw [clearLine]
  refine returns_guard .refl fun hrow => ?_
  refine returns_guard .refl fun hrows => ?_
  exact returns_clearCells (row_end_le_iff.mpr (by omega))

theorem returns_clearInLine (first last : ℕ) :
    Returns (clearInLine g t row first last) (Rewritten t) := by
  rw [clearInLine]
  refine returns_guard .refl fun hrow => ?_
  refine returns_guard .refl fun hrows => ?_
  refine returns_guard .refl fun horder => ?_
  refine returns_guard .refl fun hfirst => ?_
  refine returns_guard .refl fun hlast => ?_
  obtain ⟨n, rfl⟩ := Int.eq_ofNat_of_zero_le (Int.not_lt.mp hrow)
  have hend := row_end_le_iff.mpr (show n < g.rows t.alt by omega)
  rw [Int.toNat_natCast, Int.toNat_natCast]
  exact returns_clearCells (by omega)

theorem returns_clearPart (dir : Direction) : Returns (clearPart g t dir) (Rewritten t) := by
  cases dir with
  | all => exact returns_clearLine
  | forward => exact returns_clearInLine ..
  | reverse => exact returns_clearInLine 0 _

variable {relCol relRow : ℤ} {dir : Direction}

theorem returns_clearRowsDown : Returns (clearRowsDown g n t) (Rewritten t) := by
  induction n generalizing t with
  | zero => exact returns_ok .refl
  | succ n ih =>
    rw [clearRowsDown]
    apply returns_clearLine.bind
    intro u hu
    exact ih.mono fun v hv => hu.trans hv

theorem returns_clearRowsUp {first : ℕ} : Returns (clearRowsUp g n first t) (Rewritten t) := by
  induction n generalizing t first with
  | zero => exact returns_ok .refl
  | succ n ih =>
    rw [clearRowsUp]
    apply returns_clearLine.bind
    intro u hu
    exact ih.mono fun v hv => hu.trans hv

theorem moveColumn_le {c : ℕ} (hc : c ≤ g.textWidth) (hright : 0 < relCol → c < g.textWidth) :
    moveColumn g c relCol ≤ g.textWidth ∧
      (c < g.textWidth → moveColumn g c relCol < g.textWidth) := by
  rw [moveColumn]
  split_ifs with hzero hneg
  · exact ⟨hc, id⟩
  · have hle : (ushort ((c : ℤ) + max relCol (-c)) : ℤ) ≤ c + max relCol (-c) :=
      ushort_le_of_nonneg (by omega)
    omega
  · have hroom := toWord_le_of_nonneg (w := g.sizeBits) (x := g.textWidth - c - 1) (by omega)
    have hle : (ushort ((c : ℤ) + min relCol (toWord g.sizeBits ((g.textWidth : ℤ) - c - 1))) : ℤ) ≤
        c + min relCol (toWord g.sizeBits ((g.textWidth : ℤ) - c - 1)) :=
      ushort_le_of_nonneg (by omega)
    omega

theorem returns_moveRow {rows r : ℕ} (hrows : 0 < rows) (hr : r ≤ rows)
    (hsum : r + relRow < 2 ^ 31) :
    Returns (moveRow rows r relRow) fun r' => r' ≤ rows ∧ (r' = rows → r = rows) := by
  rw [moveRow]
  refine returns_guard ⟨hr, id⟩ fun hne => ?_
  apply returns_ite
  · intro hneg
    have hle : (ushort ((r : ℤ) + max relRow (-r)) : ℤ) ≤ r + max relRow (-r) :=
      ushort_le_of_nonneg (by omega)
    exact returns_ok (by omega)
  · intro hpos
    have hle : (ushort (min ((r : ℤ) + relRow) (rows - 1)) : ℤ) ≤
        min ((r : ℤ) + relRow) (rows - 1) :=
      ushort_le_of_nonneg (by omega)
    rw [intSum, if_pos hsum]
    exact returns_ok (by omega)

def LineInside (g : Screen) (shown : Bool) (t : VTerm) : Prop :=
  shown = true → t.pos.row < g.rows t.alt

theorem LineInside.rewritten (h : LineInside g shown t) (hu : Rewritten t u) :
    LineInside g shown u := by
  rw [LineInside, hu.pos_eq, hu.alt_eq]
  exact h

def DisplayInside (g : Screen) (shown : Bool) (t : VTerm) : Display → Prop
  | .addTab => CharInside g shown t 0x09
  | .newline => CharInside g shown t 0x0a
  | .scrollDown countDown =>
    LineInside g shown t ∧ (t.alt = true → RegionInside g t ∧ intMin < -countDown)
  | .setCursor _ _ => LineInside g shown t
  | .moveCursor relRow relCol =>
    t.pos.row + relRow < 2 ^ 31 ∧ (0 < relCol → t.pos.col < g.textWidth)
  | .clearLine _ => LineInside g shown t
  | .clearLines .all => True
  | .clearLines _ => shown = true → t.alt = false → ViewInside g t
  | .showAltBuffer enabled => shown = true → enabled = false → ViewInside g t
  | _ => True

variable (h : Sound g t)
include h

theorem returns_scrollDown {countDown : ℤ} (hd : DisplayInside g shown t (.scrollDown countDown)) :
    Returns (displayScrollDown g shown t countDown) (Sound g) := by
  rw [displayScrollDown]
  apply (returns_updateLine hd.1).bind
  intro _ _
  apply returns_ite
  · intro halt
    obtain ⟨hregion, hcount⟩ := hd.2 halt
    exact (returns_scrollText_alt halt hregion hcount).mono fun u hu => h.rewritten hu
  intro _
  apply returns_ite
  · exact fun _ => returns_ok h
  · exact fun hle => returns_ok ⟨h.main, h.alt, Nat.le_of_not_lt hle⟩

theorem returns_setCursor (hd : LineInside g shown t) :
    Returns (displaySetCursor g shown t row col) (Sound g) := by
  rw [displaySetCursor]
  apply (returns_updateLine hd).bind
  intro _ _
  refine returns_guard h fun hrow => ?_
  refine returns_guard h fun hrows => ?_
  refine returns_guard h fun hcol => ?_
  refine returns_guard h fun hcols => ?_
  have hrow_le : (ushort row : ℤ) ≤ row := ushort_le_of_nonneg (by omega)
  have hcol_le : (ushort col : ℤ) ≤ col := ushort_le_of_nonneg (by omega)
  exact returns_ok (h.setPos (placed_of_lt (by dsimp only; omega) (by dsimp only; omega)))

theorem returns_moveCursor (hd : DisplayInside g shown t (.moveCursor relRow relCol)) :
    Returns (displayMoveCursor g t relRow relCol) (Sound g) := by
  have hplaced := h.pos
  obtain ⟨hcol, hcorner⟩ := moveColumn_le hplaced.col hd.2
  rw [displayMoveCursor]
  apply (returns_moveRow (rows_pos g t.alt) hplaced.row hd.1).bind
  rintro row ⟨hrow, hlast⟩
  refine returns_ok (h.setPos ⟨hrow, hcol, fun hrows => ?_⟩)
  exact hcorner (hplaced.corner (hlast hrows))

theorem sound_restoreCursor : Sound g (displayRestoreCursor g t) := by
  have hrows := rows_pos g t.alt
  apply h.setPos
  apply placed_of_lt
  · dsimp only
    split_ifs <;> omega
  · dsimp only
    split_ifs <;> omega

theorem returns_displayClearLine (hd : LineInside g shown t) :
    Returns (displayClearLine g shown t dir) (Sound g) := by
  rw [displayClearLine]
  apply (returns_clearPart dir).bind
  intro u hu
  apply (returns_updateLine (hd.rewritten hu)).bind
  exact fun _ _ => returns_ok (h.rewritten hu)

theorem returns_clearRows (hd : DisplayInside g shown t (.clearLines dir)) :
    Returns (clearRows g t dir) fun u =>
      Sound g u ∧ (shown = true → u.alt = false → ViewInside g u) := by
  cases dir with
  | all =>
    have htop : Sound g (if t.alt then t else { t with viewTopRow := 0 }) ∧
        ((if t.alt then t else { t with viewTopRow := 0 }).alt = false →
          ViewInside g (if t.alt then t else { t with viewTopRow := 0 })) := by
      cases halt : t.alt with
      | true => exact ⟨h, fun hmain => absurd (halt.symm.trans hmain) (by decide)⟩
      | false =>
        refine ⟨⟨h.main, h.alt, zero_le _⟩, fun _ => ?_⟩
        have hmul := Nat.le_mul_of_pos_left g.textHeight (Nat.succ_pos g.scrollback)
        simpa [ViewInside, Screen.rows] using hmul
    simp only [clearRows]
    generalize (if t.alt then t else { t with viewTopRow := 0 }) = u at htop
    apply returns_clearRowsDown.bind
    intro v hv
    have hcorner : Placed g v.alt ⟨0, 0⟩ := placed_of_lt (rows_pos g v.alt) (zero_le _)
    apply returns_ok
    refine ⟨(htop.1.rewritten hv).setPos hcorner, fun _ hmain => ?_⟩
    rw [setPos_alt, hv.alt_eq] at hmain
    rw [ViewInside, setPos_viewTopRow, hv.viewTopRow_eq]
    exact htop.2 hmain
  | forward | reverse =>
    refine returns_clearRowsUp.mono fun u hu => ⟨h.rewritten hu, fun hs hmain => ?_⟩
    rw [ViewInside, hu.viewTopRow_eq]
    exact hd hs (hu.alt_eq.symm.trans hmain)

theorem returns_displayClearLines (hd : DisplayInside g shown t (.clearLines dir)) :
    Returns (displayClearLines g shown t dir) (Sound g) := by
  rw [displayClearLines]
  apply (returns_clearRows h hd).bind
  rintro u ⟨hu, hview⟩
  apply (returns_updateAll hview).bind
  exact fun _ _ => returns_ok hu

theorem returns_toggleAltBuffer {enabled : Bool}
    (hd : DisplayInside g shown t (.showAltBuffer enabled)) :
    Returns (toggleAltBuffer g shown t enabled) (Sound g) := by
  have hview : shown = true → { t with alt := enabled }.alt = false →
      ViewInside g { t with alt := enabled } := hd
  rw [toggleAltBuffer]
  apply (returns_updateAll hview).bind
  exact fun _ _ => returns_ok { h with }

theorem returns_display {op : Display} (hd : DisplayInside g shown t op) :
    Returns (display g shown t op) (Sound g) := by
  cases op with
  | addTab | newline => exact returns_putChar h hd
  | setScrollArea start count => exact returns_ok { h with }
  | scrollDown countDown => exact returns_scrollDown h hd
  | setCursor row col => exact returns_setCursor h hd
  | moveCursor relRow relCol => exact returns_moveCursor h hd
  | saveCursor => exact returns_ok { h with }
  | restoreCursor => exact returns_ok (sound_restoreCursor h)
  | clearLine dir => exact returns_displayClearLine h hd
  | clearLines dir => exact returns_displayClearLines h hd
  | resetAttributes | setForeground rgb | setBackground rgb => exact returns_ok { h with }
  | showAltBuffer enabled => exact returns_toggleAltBuffer h hd
  | setTitle title => exact returns_ok h
  | sendInput string => exact returns_ok h

end Requests

end VTermBounds
