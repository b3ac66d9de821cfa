import Acess2.GuardedRuns
import Acess2.Utf8
import Acess2.VTermBounds

/-! What is written to a virtual terminal, in chunks of any size.
The parser does not look at the terminal, so a chunk stands for a list of requests, which the
terminal carries out one after the other. This ends where the parser has a terminal answer whose
PTY echoes its input: the answer is written to the terminal while the parser is still at work. -/
namespace VTermOutput

open BufferCopies GuardedRuns TotalTriples Utf8 Vt100 VTermBuffer VTermBounds

/-- What `VT_int_PutString` has the terminal do -/
inductive Request where
  | display (op : Display)
  | putChar (ch : UInt32)
  /-- the update at the end -/
  | update
  /-- the parser does not return -/
  | fail (f : Fault)
  deriving DecidableEq

/-- A buffer given to `VT_int_PutString`, with what stands behind it in memory, and whether the
terminal is shown and its PTY echoes meanwhile -/
structure Chunk where
  bytes : List UInt8
  past : ℕ → UInt8
  shown : Bool
  /-- `PTYIMODE_ECHO` -/
  echo : Bool

def pointer (bytes : List UInt8) (past : ℕ → UInt8) : ℕ → UInt8 :=
  fun i => bytes.getD i (past (i - bytes.length))

/-- The characters of `VT_int_PutRawString`, from the byte `i` on; each takes a byte at least. -/
def rawChars (string : ℕ → UInt8) (bytes : ℕ) : (fuel i : ℕ) → List UInt32
  | 0, _ => []
  | fuel + 1, i =>
    if i < bytes then
      let (used, val) := readUTF8 (behind string i)
      val :: rawChars string bytes fuel (i + used)
    else []

def putRawString (string : ℕ → UInt8) (bytes : ℕ) : List Request :=
  (rawChars string bytes bytes 0).map .putChar

def ask (echo : Bool) (op : Display) : Request :=
  if echo && op.sends then .fail .reentered else .display op

section

variable (beyond : ℕ → UInt32)

/-- The loop of `VT_int_PutString`. Nothing more is done with the chunk, not even the update, when
the parser takes no byte. -/
def putStringLoop (echo : Bool) (past : ℕ → UInt8) :
    (fuel : ℕ) → VT100State → List UInt8 → List Request × VT100State
  | 0, st, _ => ([], st)
  | fuel + 1, st, buffer =>
    if buffer = [] then ([.update], st)
    else
      let parsed := handleVT100 beyond st buffer
      let asked := parsed.ops.map (ask echo)
      match parsed.ret with
      | .error f => (asked ++ [.fail f], parsed.st)
      | .ok escLen =>
        if escLen = 0 then (asked, parsed.st)
        else
          let text := if escLen < 0 then putRawString (pointer buffer past) escLen.natAbs else []
          let (rest, st) := putStringLoop echo past fuel parsed.st (buffer.drop escLen.natAbs)
          (asked ++ text ++ rest, st)

def putString (st : VT100State) (chunk : Chunk) : List Request × VT100State :=
  putStringLoop beyond chunk.echo chunk.past (chunk.bytes.length + 1) st chunk.bytes

/-- The requests of a stream, each with whether the terminal is shown -/
def streamRequests : VT100State → List Chunk → List (Bool × Request)
  | _, [] => []
  | st, chunk :: chunks =>
    let (requests, st) := putString beyond st chunk
    requests.map (chunk.shown, ·) ++ streamRequests st chunks

end

def perform (g : Screen) (t : VTerm) : Bool × Request → Except Fault VTerm
  | (shown, .display op) => display g shown t op
  | (shown, .putChar ch) => putChar g shown t ch
  | (shown, .update) => do
    updateScreen g shown t false
    .ok t
  | (_, .fail f) => .error f

def request (g : Screen) (t : VTerm) (r : Bool × Request) : Option VTerm := (perform g t r).toOption

variable {g : Screen} {shown : Bool} {t u : VTerm}

def RequestInside (g : Screen) (t : VTerm) : Bool × Request → Prop
  | (shown, .display op) => DisplayInside g shown t op
  | (shown, .putChar ch) => CharInside g shown t ch
  | (shown, .update) => LineInside g shown t
  | (_, .fail _) => False

/-- Between two characters the write positions are in their buffers, or just behind a row or just
below the last one. -/
structure Inside (g : Screen) (t : VTerm) : Prop where
  col : t.writePos.col ≤ g.textWidth
  row : t.writePos.row ≤ g.rows false
  altCol : t.altWritePos.col ≤ g.textWidth
  altRow : t.altWritePos.row ≤ g.rows true

theorem inside_of_sound (h : Sound g t) : Inside g t :=
  ⟨h.main.col, h.main.row, h.alt.col, h.alt.row⟩

theorem sound_fresh (altBuf : ℕ → Cell) : Sound g (fresh g altBuf) := by
  have hplaced (alt : Bool) : Placed g alt ⟨0, 0⟩ := placed_of_lt (rows_pos g alt) (Nat.zero_le _)
  exact ⟨hplaced false, hplaced true, Nat.zero_le _⟩

variable {r : Bool × Request}

theorem returns_perform (h : Sound g t) (hr : RequestInside g t r) :
    Returns (perform g t r) (Sound g) := by
  obtain ⟨shown, req⟩ := r
  cases req with
  | display op => exact returns_display h hr
  | putChar ch => exact returns_putChar h hr
  | update =>
    apply (returns_updateLine hr).bind
    exact fun _ _ => returns_ok h
  | fail f => exact absurd hr id

theorem request_sound (h : Sound g t) (hr : RequestInside g t r) :
    ∃ u, request g t r = some u ∧ Sound g u := by
  obtain ⟨u, hu, hsound⟩ := returns_perform h hr
  exact ⟨u, by rw [request, hu]; rfl, hsound⟩

variable (g) (shown) (t)

instance : Decidable (ViewInside g t) := inferInstanceAs (Decidable (_ ≤ _))

instance : Decidable (RegionInside g t) := inferInstanceAs (Decidable (_ ∧ _ ∧ _))

instance : Decidable (BackspaceInside g t) := inferInstanceAs (Decidable (_ → _))

instance : Decidable (LineInside g shown t) := inferInstanceAs (Decidable (_ → _))

instance : Decidable (ScrollsInside g shown t) :=
  inferInstanceAs (Decidable (if t.alt then RegionInside g t else shown = true → ViewInside g t))

instance (ch : UInt32) : Decidable (CharInside g shown t ch) :=
  match h : settle g shown t with
  | .error _ =>
    decidable_of_iff (g.rows t.alt ≤ nextRow g t → ScrollsInside g shown t)
      (by simp [CharInside, h])
  | .ok u =>
    decidable_of_iff ((g.rows t.alt ≤ nextRow g t → ScrollsInside g shown t) ∧
      (ch = 0x08 → BackspaceInside g u)) (by simp [CharInside, h])

instance (op : Display) : Decidable (DisplayInside g shown t op) := by
  unfold DisplayInside
  split <;> infer_instance

instance : DecidablePred (RequestInside g t) := fun r => by
  unfold RequestInside
  split <;> infer_instance

def vga : Screen where
  sizeBits := 32
  textWidth := 80
  textHeight := 30
  scrollback := 4
  word := Nat.le.refl
  width_pos := by decide
  width_short := by decide
  height_pos := by decide
  height_short := by decide
  cells := by decide
  bytes := by decide

def zeros : ℕ → UInt8 := fun _ => 0
def black : ℕ → UInt32 := fun _ => 0
def unwritten : ℕ → Cell := fun _ => ⟨0, 0⟩

/-- "Hi\n", and in two cuts the alternate screen, a scroll region, a scroll, and back -/
def session : List Chunk :=
  [⟨[0x48, 0x69, 0x0a], zeros, true, true⟩, ⟨[0x1b, 0x5b, 0x3f, 0x31, 0x30], zeros, true, true⟩,
    ⟨[0x34, 0x37, 0x68, 0x1b, 0x5b, 0x32, 0x3b, 0x32, 0x30, 0x72, 0x1b, 0x5b, 0x53], zeros, true,
      true⟩,
    ⟨[0x1b, 0x5b, 0x3f, 0x31, 0x30, 0x34, 0x37, 0x6c], zeros, true, true⟩]

def newlines : List Chunk := [⟨List.replicate 150 0x0a, zeros, true, true⟩]

end VTermOutput
