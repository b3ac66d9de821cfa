import Acess2.BufferCopies
import Acess2.MachineWords
import Acess2.TotalTriples
import Acess2.Vt100

/-! The text buffers of a virtual terminal (`vterm_termbuf.c`, `vterm_vt100.c` and
`VT_int_UpdateScreen` of `vterm_output.c`).
Every access to a buffer checks its index and faults outside the buffer; a failed `ASSERTC` is a
panic. The video device is left out: of an update only the cells it reads are kept. -/
namespace VTermBuffer

open BufferCopies MachineWords Vt100

/-- Dimensions that are shorts, with the number of cells an `int` and their bytes a `size_t` -/
structure Screen where
  sizeBits : ℕ
  textWidth : ℕ
  textHeight : ℕ
  /-- `giVT_Scrollback` -/
  scrollback : ℕ
  word : 32 ≤ sizeBits
  width_pos : 0 < textWidth
  width_short : textWidth < 2 ^ 15
  height_pos : 0 < textHeight
  height_short : textHeight < 2 ^ 15
  cells : (scrollback + 1) * textHeight * textWidth < 2 ^ 31
  bytes : (scrollback + 1) * textHeight * textWidth * 8 < 2 ^ sizeBits

structure Pos where
  row : ℕ
  col : ℕ
  deriving DecidableEq

structure Cell where
  ch : UInt32
  colour : UInt32
  deriving DecidableEq

/-- The fields of `tVTerm` that the text is kept with -/
structure VTerm where
  /-- `VT_FLAG_ALTBUF` -/
  alt : Bool
  curColour : UInt32
  viewTopRow : ℕ
  writePos : Pos
  text : ℕ → Cell
  altWritePos : Pos
  altBuf : ℕ → Cell
  scrollTop : ℤ
  scrollHeight : ℤ
  savedWritePos : Pos

def VTerm.pos (t : VTerm) : Pos := if t.alt then t.altWritePos else t.writePos

def VTerm.setPos (t : VTerm) (p : Pos) : VTerm :=
  if t.alt then { t with altWritePos := p } else { t with writePos := p }

def VTerm.buffer (t : VTerm) : ℕ → Cell := if t.alt then t.altBuf else t.text

def VTerm.setBuffer (t : VTerm) (b : ℕ → Cell) : VTerm :=
  if t.alt then { t with altBuf := b } else { t with text := b }

def VTerm.blank (t : VTerm) : Cell := ⟨0, t.curColour⟩

def defaultColour : UInt32 := 0x0AAA0000

def ushort (x : ℤ) : ℕ := toWord 16 x

def short (x : ℤ) : ℤ := Int.bmod x (2 ^ 16)

def assertc (p : Prop) [Decidable p] : Except Fault Unit := if p then .ok () else .error .panic

def intSum (x y : ℤ) : Except Fault ℤ := if x + y < 2 ^ 31 then .ok (x + y) else .error .overflow

-- `shown`: the terminal is `gpVT_CurTerm`, and in text mode
variable (g : Screen) (shown : Bool)

/-- `VT_int_GetBufferRows`, for the alternate buffer or the main one -/
def Screen.rows (alt : Bool) : ℕ := (if alt then 1 else g.scrollback + 1) * g.textHeight

def Screen.limit (alt : Bool) : ℕ := g.rows alt * g.textWidth

/-- A terminal as `VT_Install` makes it; the alternate buffer is not cleared. -/
def fresh (altBuf : ℕ → Cell) : VTerm where
  alt := false
  curColour := defaultColour
  viewTopRow := 0
  writePos := ⟨0, 0⟩
  text := fun _ => ⟨0, 0⟩
  altWritePos := ⟨0, 0⟩
  altBuf := altBuf
  scrollTop := 0
  scrollHeight := g.textHeight
  savedWritePos := ⟨0, 0⟩

def readCell (t : VTerm) (i : ℕ) : Except Fault Cell :=
  if i < g.limit t.alt then .ok (t.buffer i) else .error .stray

def writeCell (t : VTerm) (i : ℕ) (c : Cell) : Except Fault VTerm :=
  if i < g.limit t.alt then .ok (t.setBuffer (Function.update t.buffer i c)) else .error .stray

def readCells (t : VTerm) (start n : ℕ) : Except Fault Unit :=
  if n = 0 ∨ start + n ≤ g.limit t.alt then .ok () else .error .stray

/-- `memmove` within the buffer, by cells of eight bytes -/
def moveCells (t : VTerm) (dst src len : ℕ) : Except Fault VTerm :=
  let n := len * 8 % 2 ^ g.sizeBits / 8
  if n = 0 ∨ (dst + n ≤ g.limit t.alt ∧ src + n ≤ g.limit t.alt) then
    .ok (t.setBuffer (memcpy t.buffer dst n (behind t.buffer src)))
  else .error .stray

/-- `n` cells from `i` on are cleared; in some of the loops an assertion comes first. -/
def clearCells (checked : Bool) : (n i : ℕ) → VTerm → Except Fault VTerm
  | 0, _, t => .ok t
  | n + 1, i, t => do
    assertc (checked → i < g.limit t.alt)
    let t ← writeCell g t i t.blank
    clearCells checked n (i + 1) t

def updateScreen (t : VTerm) (all : Bool) : Except Fault Unit :=
  if !shown then .ok ()
  else if all then
    let viewPos := if t.alt then 0 else t.viewTopRow * g.textWidth % 2 ^ g.sizeBits
    readCells g t viewPos (g.textWidth * g.textHeight)
  else readCells g t (t.pos.row * g.textWidth) g.textWidth

/-- The rows that a scroll has revealed are updated, each on its own; `down` is what is added to
the row between them. -/
def showRows (down : ℕ) : ℕ → VTerm → Except Fault VTerm
  | 0, t => .ok t
  | n + 1, t => do
    updateScreen g shown t false
    showRows down n (t.setPos ⟨ushort (t.pos.row + down), t.pos.col⟩)

section

variable (t : VTerm)

/-- `VT_int_ScrollText` with `Count > 0`, once it has been cut to the height of the region -/
def scrollUp (top height count : ℤ) : Except Fault VTerm := do
  let chars := toWord g.sizeBits (g.textWidth * count)
  let base := toWord g.sizeBits (g.textWidth * top)
  let len := toWord g.sizeBits (g.textWidth * (height - count))
  assertc ((base + chars + len) % 2 ^ g.sizeBits ≤ g.limit t.alt)
  let t ← moveCells g t base ((base + chars) % 2 ^ g.sizeBits) len
  let t ← clearCells g true chars ((base + len) % 2 ^ g.sizeBits) t
  let row := if t.alt then top else t.viewTopRow + (g.textHeight - count)
  showRows g shown 1 count.toNat (t.setPos ⟨ushort row, t.pos.col⟩)

/-- The other branch, with `Count` negated: it clears the first cells of the buffer, and updates the
first row of the region. -/
def scrollBack (top height count : ℤ) : Except Fault VTerm := do
  let chars := toWord g.sizeBits (g.textWidth * count)
  let base := toWord g.sizeBits (g.textWidth * top)
  let len := toWord g.sizeBits (g.textWidth * height - chars)
  assertc ((base + chars + len) % 2 ^ g.sizeBits ≤ g.limit t.alt)
  let t ← moveCells g t ((base + chars) % 2 ^ g.sizeBits) base len
  let t ← clearCells g false chars 0 t
  let row := if t.alt then top else t.viewTopRow
  showRows g shown 0 count.toNat (t.setPos ⟨ushort row, t.pos.col⟩)

/-- The two branches of `VT_int_ScrollText` -/
def scrollRegion (top height count : ℤ) : Except Fault VTerm :=
  if 0 < count then scrollUp g shown t top height (min count height)
  else if count = intMin then .error .overflow
  else scrollBack g shown t top height (min (-count) height)

def scrollText (count : ℤ) : Except Fault VTerm := do
  let top := if t.alt then t.scrollTop else 0
  let height := if t.alt then t.scrollHeight else g.rows t.alt
  let scrolled ← scrollRegion g shown t top height count
  .ok (scrolled.setPos t.pos)

def clearLine (row : ℤ) : Except Fault VTerm :=
  if row < 0 then .ok t
  else if (g.rows t.alt : ℤ) ≤ row then .ok t
  else clearCells g false g.textWidth (row.toNat * g.textWidth) t

def clearInLine (row firstCol lastCol : ℤ) : Except Fault VTerm :=
  if row < 0 then .ok t
  else if (g.rows t.alt : ℤ) ≤ row then .ok t
  else if lastCol < firstCol then .ok t
  else if (g.textWidth : ℤ) ≤ firstCol then .ok t
  else if (g.textWidth : ℤ) < lastCol then .ok t
  else
    clearCells g true (lastCol - firstCol).toNat (row.toNat * g.textWidth + firstCol.toNat) t

def wrapLine : Except Fault VTerm :=
  if g.textWidth ≤ t.pos.col then do
    assertc (t.pos.col ≤ g.textWidth)
    updateScreen g shown t false
    .ok (t.setPos ⟨ushort (t.pos.row + 1), 0⟩)
  else .ok t

def makeRow : Except Fault VTerm :=
  if g.rows t.alt ≤ t.pos.row then do
    assertc (t.pos.row < g.rows t.alt + 1)
    let t ← scrollText g shown t 1
    .ok (t.setPos ⟨ushort (t.pos.row - 1), t.pos.col⟩)
  else .ok t

def bringIntoView : VTerm :=
  if t.alt then t
  else if (t.viewTopRow + g.textHeight) % 2 ^ g.sizeBits ≤ t.pos.row then
    { t with viewTopRow := toWord g.sizeBits (t.pos.row - (g.textHeight - 1)) }
  else if t.pos.row < t.viewTopRow then { t with viewTopRow := t.pos.row }
  else t

/-- `VT_int_PutChar` up to the cell it writes -/
def settle : Except Fault VTerm := do
  let t ← wrapLine g shown t
  let t ← makeRow g shown t
  .ok (bringIntoView g t)

def writeIndex : ℕ := t.pos.row * g.textWidth + t.pos.col

end

/-- The loop of a tab, which ends at the right-hand edge at the latest: `n` columns are left. -/
def putTab : (n : ℕ) → VTerm → (writePos col : ℕ) → Except Fault (VTerm × ℕ)
  | 0, t, writePos, _ => .ok (t, writePos)
  | n + 1, t, writePos, col => do
    let t ← writeCell g t writePos t.blank
    if (col + 1) % 8 ≠ 0 ∧ col + 1 < g.textWidth then putTab n t (writePos + 1) (col + 1)
    else .ok (t, writePos + 1)

def eraseTab : (i : ℕ) → VTerm → (writePos : ℕ) → Except Fault (VTerm × ℕ)
  | 0, t, writePos => do
    let t ← writeCell g t writePos t.blank
    .ok (t, toWord g.sizeBits (writePos - 1))
  | i + 1, t, writePos => do
    let t ← writeCell g t writePos t.blank
    let writePos := toWord g.sizeBits (writePos - 1)
    if writePos = 0 then .ok (t, writePos)
    else do
      let cell ← readCell g t writePos
      if cell.ch = 0 then eraseTab i t writePos else .ok (t, writePos)

def putBackspace (t : VTerm) (writePos : ℕ) : Except Fault (VTerm × ℕ) :=
  if writePos = 0 then .ok (t, writePos)
  else do
    let writePos := writePos - 1
    let cell ← readCell g t writePos
    if cell.ch ≠ 0 then do
      let t ← writeCell g t writePos t.blank
      .ok (t, writePos)
    else do
      let (t, writePos) ← eraseTab g 7 t writePos
      let cell ← readCell g t writePos
      let writePos := if cell.ch ≠ 0 then writePos + 1 else writePos
      .ok (t.setPos ⟨t.pos.row, writePos % g.textWidth⟩, writePos)

/-- The `switch` of `VT_int_PutChar`, for a character that is not null -/
def putInPlace (t : VTerm) (ch : UInt32) (writePos : ℕ) : Except Fault (VTerm × ℕ) :=
  if ch = 0x0a then do
    updateScreen g shown t false
    .ok (t.setPos ⟨ushort (t.pos.row + 1), 0⟩, writePos)
  else if ch = 0x0d then .ok (t.setPos ⟨t.pos.row, 0⟩, writePos)
  else if ch = 0x09 then putTab g (g.textWidth - t.pos.col) t writePos t.pos.col
  else if ch = 0x08 then putBackspace g t writePos
  else do
    let t ← writeCell g t writePos ⟨ch, t.curColour⟩
    -- the line is updated before it wraps
    updateScreen g (shown ∧ (writePos + 1) % g.textWidth = 0) t false
    .ok (t.setPos ⟨t.pos.row, ushort (t.pos.col + 1)⟩, writePos + 1)

def putChar (t : VTerm) (ch : UInt32) : Except Fault VTerm := do
  let t ← settle g shown t
  assertc (writeIndex g t < g.limit t.alt)
  if ch = 0 then .ok t
  else do
    let (t, writePos) ← putInPlace g shown t ch (writeIndex g t)
    assertc (writePos ≤ g.limit t.alt)
    .ok t

/-- `Display_ScrollDown`; the sum is never below zero, for a `size_t`. -/
def displayScrollDown (t : VTerm) (countDown : ℤ) : Except Fault VTerm := do
  updateScreen g shown t false
  if t.alt then scrollText g shown t (-countDown)
  else
    let viewTopRow := toWord g.sizeBits (t.viewTopRow + countDown)
    if g.rows false < viewTopRow then .ok t else .ok { t with viewTopRow := viewTopRow }

def displaySetCursor (t : VTerm) (row col : ℤ) : Except Fault VTerm := do
  updateScreen g shown t false
  if row < 0 then .ok t
  else if (g.rows t.alt : ℤ) ≤ row then .ok t
  else if col < 0 then .ok t
  else if (g.textWidth : ℤ) ≤ col then .ok t
  else .ok (t.setPos ⟨ushort row, ushort col⟩)

/-- The column of `Display_MoveCursor`: to the right the room is a `size_t`. -/
def moveColumn (col : ℕ) (relCol : ℤ) : ℕ :=
  if relCol = 0 then col
  else if relCol < 0 then ushort (col + max relCol (-col))
  else ushort (col + min relCol (toWord g.sizeBits (g.textWidth - col - 1)))

def moveRow (rows row : ℕ) (relRow : ℤ) : Except Fault ℕ :=
  if relRow = 0 then .ok row
  else if relRow < 0 then .ok (ushort (row + max relRow (-row)))
  else do
    let sum ← intSum row relRow
    .ok (ushort (min sum (rows - 1)))

def displayMoveCursor (t : VTerm) (relRow relCol : ℤ) : Except Fault VTerm := do
  let row ← moveRow (g.rows t.alt) t.pos.row relRow
  .ok (t.setPos ⟨row, moveColumn g t.pos.col relCol⟩)

def displayRestoreCursor (t : VTerm) : VTerm :=
  let saved := t.savedWritePos
  t.setPos
    ⟨if g.rows t.alt ≤ saved.row then g.rows t.alt - 1 else saved.row,
      if g.textWidth ≤ saved.col then g.textWidth - 1 else saved.col⟩

def clearPart (t : VTerm) : Direction → Except Fault VTerm
  | .all => clearLine g t t.pos.row
  | .forward => clearInLine g t t.pos.row t.pos.col g.textWidth
  | .reverse => clearInLine g t t.pos.row 0 t.pos.col

def displayClearLine (t : VTerm) (dir : Direction) : Except Fault VTerm := do
  let t ← clearPart g t dir
  updateScreen g shown t false
  .ok t

def clearRowsDown : ℕ → VTerm → Except Fault VTerm
  | 0, t => .ok t
  | n + 1, t => do
    let t ← clearLine g t n
    clearRowsDown n t

def clearRowsUp : (n row : ℕ) → VTerm → Except Fault VTerm
  | 0, _, t => .ok t
  | n + 1, row, t => do
    let t ← clearLine g t row
    clearRowsUp n (row + 1) t

/-- The rows that `Display_ClearLines` clears; when these are all, the cursor goes to the first. -/
def clearRows (t : VTerm) : Direction → Except Fault VTerm
  | .all => do
    let t := if t.alt then t else { t with viewTopRow := 0 }
    let t ← clearRowsDown g (g.rows t.alt) t
    .ok (t.setPos ⟨0, 0⟩)
  | .forward => clearRowsUp g (g.rows t.alt - t.pos.row) t.pos.row t
  | .reverse => clearRowsUp g t.pos.row 0 t

def displayClearLines (t : VTerm) (dir : Direction) : Except Fault VTerm := do
  let t ← clearRows g t dir
  updateScreen g shown t true
  .ok t

def colour24to12 (col24 : UInt32) : UInt32 :=
  let component (i : UInt32) : UInt32 := ((col24 >>> (i * 8) &&& 0xFF) * 15 / 255) <<< (i * 4)
  component 0 ||| component 1 ||| component 2

def displaySetForeground (t : VTerm) (rgb : UInt32) : VTerm :=
  { t with curColour := (t.curColour &&& 0x8000FFFF) ||| (colour24to12 rgb <<< (16 : UInt32)) }

def displaySetBackground (t : VTerm) (rgb : UInt32) : VTerm :=
  { t with curColour := (t.curColour &&& 0xFFFF8000) ||| colour24to12 rgb }

def toggleAltBuffer (t : VTerm) (enabled : Bool) : Except Fault VTerm := do
  let t := { t with alt := enabled }
  updateScreen g shown t true
  .ok t

/-- The calls of the parser; the input that one of them sends goes to the PTY. -/
def display (t : VTerm) : Display → Except Fault VTerm
  | .addTab => putChar g shown t 0x09
  | .newline => putChar g shown t 0x0a
  | .setScrollArea start count =>
    .ok { t with scrollTop := short start, scrollHeight := short count }
  | .scrollDown countDown => displayScrollDown g shown t countDown
  | .setCursor row col => displaySetCursor g shown t row col
  | .moveCursor relRow relCol => displayMoveCursor g t relRow relCol
  | .saveCursor => .ok { t with savedWritePos := t.pos }
  | .restoreCursor => .ok (displayRestoreCursor g t)
  | .clearLine dir => displayClearLine g shown t dir
  | .clearLines dir => displayClearLines g shown t dir
  | .resetAttributes => .ok { t with curColour := defaultColour }
  | .setForeground rgb => .ok (displaySetForeground t rgb)
  | .setBackground rgb => .ok (displaySetBackground t rgb)
  | .showAltBuffer enabled => toggleAltBuffer g shown t enabled
  | .setTitle _ => .ok t
  | .sendInput _ => .ok t

variable {t u v : VTerm} {p q : Pos} {b : ℕ → Cell}

@[simp] theorem setPos_alt : (t.setPos p).alt = t.alt := by
  cases h : t.alt <;> simp [VTerm.setPos, h]

@[simp] theorem setPos_pos : (t.setPos p).pos = p := by
  cases h : t.alt <;> simp [VTerm.setPos, VTerm.pos, h]

@[simp] theorem setPos_setPos : (t.setPos p).setPos q = t.setPos q := by
  cases h : t.alt <;> simp [VTerm.setPos, h]

@[simp] theorem setPos_viewTopRow : (t.setPos p).viewTopRow = t.viewTopRow := by
  cases h : t.alt <;> simp [VTerm.setPos, h]

@[simp] theorem setPos_self : t.setPos t.pos = t := by
  rw [VTerm.setPos, VTerm.pos]
  split <;> rfl

@[simp] theorem setBuffer_alt : (t.setBuffer b).alt = t.alt := by
  cases h : t.alt <;> simp [VTerm.setBuffer, h]

@[simp] theorem setBuffer_pos : (t.setBuffer b).pos = t.pos := by
  cases h : t.alt <;> simp [VTerm.setBuffer, VTerm.pos, h]

@[simp] theorem setBuffer_viewTopRow : (t.setBuffer b).viewTopRow = t.viewTopRow := by
  cases h : t.alt <;> simp [VTerm.setBuffer, h]

@[simp] theorem setBuffer_blank : (t.setBuffer b).blank = t.blank := by
  cases h : t.alt <;> simp [VTerm.setBuffer, VTerm.blank, h]

@[simp] theorem buffer_setBuffer : (t.setBuffer b).buffer = b := by
  cases h : t.alt <;> simp [VTerm.setBuffer, VTerm.buffer, h]

@[simp] theorem setBuffer_setBuffer {c : ℕ → Cell} :
    (t.setBuffer b).setBuffer c = t.setBuffer c := by
  cases h : t.alt <;> simp [VTerm.setBuffer, h]

@[simp] theorem setBuffer_self : t.setBuffer t.buffer = t := by
  rw [VTerm.setBuffer, VTerm.buffer]
  split <;> rfl

def Rewritten (t u : VTerm) : Prop :=
  ∃ text altBuf, u = { t with text := text, altBuf := altBuf }

theorem Rewritten.refl : Rewritten t t := ⟨t.text, t.altBuf, rfl⟩

theorem Rewritten.trans (htu : Rewritten t u) (huv : Rewritten u v) : Rewritten t v := by
  obtain ⟨text, altBuf, rfl⟩ := htu
  obtain ⟨text', altBuf', rfl⟩ := huv
  exact ⟨text', altBuf', rfl⟩

theorem rewritten_setBuffer : Rewritten t (t.setBuffer b) := by
  cases h : t.alt
  · exact ⟨b, t.altBuf, by simp [VTerm.setBuffer, h]⟩
  · exact ⟨t.text, b, by simp [VTerm.setBuffer, h]⟩

theorem Rewritten.alt_eq (h : Rewritten t u) : u.alt = t.alt := by
  obtain ⟨text, altBuf, rfl⟩ := h
  rfl

theorem Rewritten.pos_eq (h : Rewritten t u) : u.pos = t.pos := by
  obtain ⟨text, altBuf, rfl⟩ := h
  rfl

theorem Rewritten.viewTopRow_eq (h : Rewritten t u) : u.viewTopRow = t.viewTopRow := by
  obtain ⟨text, altBuf, rfl⟩ := h
  rfl

end VTermBuffer
