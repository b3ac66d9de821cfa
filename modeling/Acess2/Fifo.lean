import Acess2.GuardedRuns
import Acess2.MachineWords
import Acess2.RingBuffers

/-! Pipes (`drv/fifo.c`): a queue of bytes in a ring.
`ReadPos == WritePos` means that the ring is empty, so it must never get full to the last byte.
The passes of the loops in `FIFO_Read` and `FIFO_Write` are the steps; a pass in blocking mode
follows a wait, which says nothing about the ring by the time the pass is made. -/
namespace Fifo

open GuardedRuns MachineWords RingBuffers Nat List

/-- What stays the same for a pipe: `BufSize`, the place of the field `Buffer` as seen from the
ring, and the width of a `Uint` -/
structure Layout where
  bufSize : ℕ
  field : ℤ
  width : ℕ
  two_le : 2 ≤ bufSize
  front : field < 0
  wide : 32 ≤ width

/-- `tPipe`, with the flag `PF_BLOCKING`, and memory as seen from `pipe->Buffer` -/
structure Pipe where
  blocking : Bool
  readPos : ℤ
  writePos : ℤ
  mem : ℤ → UInt8

def load (mem : ℤ → UInt8) (a : ℤ) (n : ℕ) : List UInt8 :=
  (List.range n).map fun i : ℕ => mem (a + i)

def store (mem : ℤ → UInt8) (a : ℤ) (bytes : List UInt8) : ℤ → UInt8 :=
  fun x => if a ≤ x then (bytes[(x - a).toNat]?).getD (mem x) else mem x

def Pipe.blocks (p : Pipe) (noblock : Bool) : Bool := p.blocking && !noblock

variable (l : Layout)

def advance (pos : ℤ) (len : ℕ) : ℤ := (toInt (toWord l.width (pos + len))).tmod l.bufSize

/-- `len`: what is left, but no more than `available`, which is compared as a `Uint` -/
def limited (available : ℤ) (remaining : ℕ) : ℕ :=
  if toWord l.width available < remaining then toWord l.width available else remaining

/-- What a pass has copied, the pipe behind it, and the ranges of memory it has touched -/
structure Pass where
  bytes : List UInt8
  pipe : Pipe
  touched : List (ℤ × ℕ)

def readLen (p : Pipe) (remaining : ℕ) : ℕ :=
  limited l (if p.readPos < p.writePos then toInt (p.writePos - p.readPos)
    else toInt (p.writePos + l.bufSize - p.readPos)) remaining

/-- The pass of `FIFO_Read`; behind the end of the ring it reads from `&pipe->Buffer`. -/
def readPass (p : Pipe) (remaining : ℕ) : Pass :=
  let len := readLen l p remaining
  let ofs := toWord l.width (toInt (l.bufSize - p.readPos))
  let pipe := { p with readPos := advance l p.readPos len }
  if len > ofs then
    ⟨load p.mem p.readPos ofs ++ load p.mem l.field (len - ofs), pipe,
      [(p.readPos, ofs), (l.field, len - ofs)]⟩
  else ⟨load p.mem p.readPos len, pipe, [(p.readPos, len)]⟩

/-- `FIFO_Read`, which returns after its first pass -/
def fifoRead (p : Pipe) (length : ℕ) (noblock : Bool) : Pass :=
  if length = 0 then ⟨[], p, []⟩
  else if p.blocks noblock = false ∧ p.readPos = p.writePos then ⟨[], p, []⟩
  else readPass l p length

variable (p : Pipe) (noblock : Bool)

def writeLen (remaining : ℕ) : ℕ :=
  if p.blocks noblock then
    limited l (if p.readPos > p.writePos then toInt (p.readPos - p.writePos)
      else toInt (p.readPos + l.bufSize - p.writePos)) remaining
  else limited l (toInt (p.readPos - p.writePos)) remaining

def writePass (data : List UInt8) : Pass :=
  let len := writeLen l p noblock data.length
  let ofs := toWord l.width (toInt (l.bufSize - p.writePos))
  let writePos := advance l p.writePos len
  if len > ofs then
    ⟨data.take len, { p with
      writePos
      mem := store (store p.mem p.writePos (data.take ofs)) 0 ((data.take len).drop ofs) },
      [(p.writePos, ofs), (0, len - ofs)]⟩
  else ⟨data.take len, { p with writePos, mem := store p.mem p.writePos (data.take len) },
    [(p.writePos, len)]⟩

/-- The pass of `FIFO_Write` with `data` left; `none` if the call returns 0. -/
def fifoWritePass (data : List UInt8) : Option Pass :=
  if p.blocks noblock = false ∧ p.readPos = (p.writePos + 1).tmod l.bufSize then none
  else some (writePass l p noblock data)

/-- `FIFO_Write`, left alone, with at most `fuel` passes: what it returns -/
def fifoWrite (noblock : Bool) (length : ℕ) : ℕ → Pipe → List UInt8 → Option ℕ
  | _, _, [] => some length
  | 0, _, _ :: _ => none
  | fuel + 1, p, byte :: data =>
    match fifoWritePass l p noblock (byte :: data) with
    | none => some 0
    | some pass => fifoWrite noblock length fuel pass.pipe ((byte :: data).drop pass.bytes.length)

/-- A pipe and what has happened to it; `alone` has the non-blocking calls of `FIFO_Write`, as
they stood before each pass. -/
structure System where
  pipe : Pipe
  accepted : List UInt8
  returned : List UInt8
  touched : List (ℤ × ℕ)
  alone : List (Pipe × Bool × List UInt8)

inductive Op where
  | read (length : ℕ) (noblock : Bool)
  | write (data : List UInt8) (noblock : Bool)

def step (s : System) : Op → Option System
  | .read length noblock =>
    let pass := fifoRead l s.pipe length noblock
    some { s with
      pipe := pass.pipe
      returned := s.returned ++ pass.bytes
      touched := s.touched ++ pass.touched }
  | .write data noblock =>
    if data = [] then some s
    else
      let alone :=
        if s.pipe.blocks noblock then s.alone else s.alone ++ [(s.pipe, noblock, data)]
      match fifoWritePass l s.pipe noblock data with
      | none => some { s with alone }
      | some pass => some { s with
          pipe := pass.pipe
          accepted := s.accepted ++ pass.bytes
          touched := s.touched ++ pass.touched
          alone }

def newPipe (blocking : Bool) (mem : ℤ → UInt8) : System := ⟨⟨blocking, 0, 0, mem⟩, [], [], [], []⟩

variable {l} {s t : System}

structure Sound (l : Layout) (s : System) : Prop where
  stream : s.returned <+: s.accepted
  bounded : s.accepted.length ≤ s.returned.length + (l.bufSize - 1)
  inside : ∀ x ∈ s.touched, 0 ≤ x.1 ∧ x.1 + x.2 ≤ l.bufSize
  ends : ∀ x ∈ s.alone, ∃ length fuel, (fifoWrite l x.2.1 length fuel x.1 x.2.2).isSome

def System.unread (s : System) : ℕ := s.accepted.length - s.returned.length

/-- A read stays before the end of the ring, and a write leaves a slot; a blocking read and a
non-blocking write do not find the ring empty. -/
def guard (l : Layout) (s : System) : Op → Prop
  | .read length noblock => length = 0 ∨ (s.pipe.blocks noblock = false ∧ s.unread = 0) ∨
      (s.unread ≠ 0 ∧ (min s.unread length : ℕ) ≤ (l.bufSize : ℤ) - s.pipe.readPos)
  | .write data noblock => data = [] ∨ (s.pipe.blocks noblock = false ∧ s.unread = l.bufSize - 1) ∨
      ((s.pipe.blocks noblock = true ∨ s.unread ≠ 0) ∧ s.unread + data.length ≤ l.bufSize - 1)

instance (l : Layout) (s : System) : DecidablePred (guard l s) := fun c => by
  cases c <;> dsimp only [guard] <;> infer_instance

structure Queue (l : Layout) (p : Pipe) (rp : ℕ) (unread : List UInt8) : Prop where
  small : l.bufSize ≤ 2 ^ 30
  short : unread.length < l.bufSize
  rp_lt : rp < l.bufSize
  readPos : p.readPos = rp
  writePos : p.writePos = ((rp + unread.length) % l.bufSize : ℕ)
  holds : Holds l.bufSize (fun i => p.mem i) rp unread

variable {p} {rp : ℕ} {unread : List UInt8}

theorem word_large (l : Layout) : 2 ^ 32 ≤ 2 ^ l.width := Nat.pow_le_pow_right (by decide) l.wide

theorem limited_nat {n : ℕ} (hn : n < 2 ^ l.width) (remaining : ℕ) :
    limited l n remaining = min n remaining := by
  rw [limited, toWord_of_lt hn]
  split_ifs with hlt
  · exact (min_eq_left hlt.le).symm
  · exact (min_eq_right (not_lt.mp hlt)).symm

variable {pos : ℕ} {noblock}

theorem advance_nat {len : ℕ} (hsum : pos + len < 2 ^ 31) :
    advance l pos len = ((pos + len) % l.bufSize : ℕ) := by
  have hlarge := word_large l
  have hcast : (pos : ℤ) + len = (pos + len : ℕ) := by push_cast; rfl
  rw [advance, hcast, toWord_of_lt (by omega), toInt_of_lt hsum, Int.ofNat_tmod]

theorem toInt_eq {n : ℕ} {x : ℤ} (hx : x = n) (hn : n < 2 ^ 31) : toInt x = n := by
  rw [hx, toInt_of_lt hn]

theorem room_nat (hpos : pos < l.bufSize) (hsmall : l.bufSize ≤ 2 ^ 30) :
    toWord l.width (toInt (l.bufSize - pos)) = l.bufSize - pos := by
  have hlarge := word_large l
  rw [toInt_eq (n := l.bufSize - pos) (by omega) (by omega), toWord_of_lt (by omega)]

section

variable (h : Queue l p rp unread)
include h

theorem Queue.writePos_cases :
    (rp + unread.length < l.bufSize ∧ p.writePos = (rp + unread.length : ℕ)) ∨
      (l.bufSize ≤ rp + unread.length ∧ p.writePos = (rp + unread.length - l.bufSize : ℕ)) := by
  have hshort := h.short
  have hslot := slot_eq h.rp_lt hshort.le
  rw [h.writePos, hslot]
  split_ifs with hlt
  · exact .inl ⟨hlt, rfl⟩
  · exact .inr ⟨not_lt.mp hlt, rfl⟩

theorem Queue.empty_iff : p.readPos = p.writePos ↔ unread.length = 0 := by
  have hshort := h.short
  have hrp := h.rp_lt
  rw [h.readPos]
  rcases h.writePos_cases with ⟨hlt, heq⟩ | ⟨hle, heq⟩ <;> rw [heq] <;> omega

theorem Queue.full_iff :
    p.readPos = (p.writePos + 1).tmod l.bufSize ↔ unread.length = l.bufSize - 1 := by
  have hshort := h.short
  have hrp := h.rp_lt
  have hnext : (p.writePos + 1).tmod l.bufSize = ((rp + (unread.length + 1)) % l.bufSize : ℕ) := by
    have hcast : ((rp + unread.length) % l.bufSize : ℕ) + (1 : ℤ) =
        ((rp + unread.length) % l.bufSize + 1 : ℕ) := by push_cast; rfl
    rw [h.writePos, hcast, ← Int.ofNat_tmod, mod_add_mod, add_assoc]
  rw [h.readPos, hnext, slot_eq hrp (by omega)]
  split_ifs <;> omega

theorem Queue.available : (if p.readPos < p.writePos then toInt (p.writePos - p.readPos)
      else toInt (p.writePos + l.bufSize - p.readPos)) =
      if unread.length = 0 then (l.bufSize : ℤ) else unread.length := by
  have hshort := h.short
  have hrp := h.rp_lt
  have hsmall := h.small
  rw [h.readPos]
  rcases h.writePos_cases with ⟨hlt, heq⟩ | ⟨hle, heq⟩ <;> rw [heq]
  · by_cases hzero : unread.length = 0
    · rw [if_neg (by omega), if_pos hzero, toInt_eq (n := l.bufSize) (by omega) (by omega)]
    · rw [if_pos (by omega), if_neg hzero, toInt_eq (n := unread.length) (by omega) (by omega)]
  · rw [if_neg (by omega), if_neg (by omega), toInt_eq (n := unread.length) (by omega) (by omega)]

theorem Queue.free : (if p.readPos > p.writePos then toInt (p.readPos - p.writePos)
      else toInt (p.readPos + l.bufSize - p.writePos)) = (l.bufSize - unread.length : ℕ) := by
  have hshort := h.short
  have hsmall := h.small
  rw [h.readPos]
  rcases h.writePos_cases with ⟨hlt, heq⟩ | ⟨hle, heq⟩ <;> rw [heq]
  · rw [if_neg (by omega)]
    exact toInt_eq (by omega) (by omega)
  · rw [if_pos (by omega)]
    exact toInt_eq (by omega) (by omega)

theorem Queue.readLen_eq (hbytes : unread.length ≠ 0) (length : ℕ) :
    readLen l p length = min unread.length length := by
  have hshort := h.short
  have hsmall := h.small
  have hlarge := word_large l
  rw [readLen, h.available, if_neg hbytes, limited_nat (by omega)]

theorem Queue.readRoom : toWord l.width (toInt (l.bufSize - p.readPos)) = l.bufSize - rp := by
  rw [h.readPos, room_nat h.rp_lt h.small]

end

theorem limited_le (available : ℤ) (remaining : ℕ) : limited l available remaining ≤ remaining := by
  unfold limited
  split_ifs with hlt
  · exact hlt.le
  · exact le_rfl

theorem Queue.writeLen_ge (h : Queue l p rp unread)
    (hmode : p.blocks noblock = true ∨ unread.length ≠ 0) (remaining : ℕ) :
    min (l.bufSize - unread.length) remaining ≤ writeLen l p noblock remaining := by
  have hshort := h.short
  have hsmall := h.small
  have hlarge := word_large l
  by_cases hblocks : p.blocks noblock = true
  · rw [writeLen, if_pos hblocks, h.free, limited_nat (by omega)]
  have hbytes := hmode.resolve_left hblocks
  rw [writeLen, if_neg hblocks, h.readPos]
  rcases h.writePos_cases with ⟨hlt, heq⟩ | ⟨hle, heq⟩
  · -- the difference is negative, and a huge number as a `Uint`
    have hdiff : (rp : ℤ) - p.writePos = -(unread.length : ℤ) := by omega
    rw [hdiff, toInt_neg (by omega), limited, toWord_neg (by omega) (by omega)]
    split_ifs
    · exact (min_le_left ..).trans (by omega)
    · exact min_le_right ..
  · have hdiff : (rp : ℤ) - p.writePos = (l.bufSize - unread.length : ℕ) := by omega
    rw [hdiff, toInt_of_lt (by omega), limited_nat (by omega)]

theorem writeLen_le (p : Pipe) (noblock : Bool) (remaining : ℕ) :
    writeLen l p noblock remaining ≤ remaining := by
  unfold writeLen
  split_ifs
  all_goals exact limited_le ..

theorem Queue.writeLen_empty (h : Queue l p rp unread)
    (hblocks : p.blocks noblock = false) (hempty : unread.length = 0) (remaining : ℕ) :
    writeLen l p noblock remaining = 0 := by
  have hzero : p.readPos - p.writePos = (0 : ℕ) := by
    rw [h.empty_iff.mpr hempty, sub_self]
    rfl
  rw [writeLen, if_neg (by simp [hblocks]), hzero, toInt_of_lt (by decide),
    limited_nat (Nat.two_pow_pos _), Nat.zero_min]

variable {data bytes : List UInt8} {mem : ℤ → UInt8} {size : ℕ} {a wp : ℕ}

theorem store_inside {i : ℕ} {x : UInt8} (hx : bytes[i]? = some x) :
    store mem a bytes (a + i : ℕ) = x := by
  have hindex : (((a + i : ℕ) : ℤ) - a).toNat = i := by omega
  rw [store, if_pos (by omega), hindex, hx, Option.getD_some]

theorem store_outside {x : ℕ} (hx : x < a ∨ a + bytes.length ≤ x) :
    store mem a bytes x = mem x := by
  unfold store
  split_ifs with hle
  · have hindex : bytes.length ≤ ((x : ℤ) - a).toNat := by omega
    rw [getElem?_eq_none hindex, Option.getD_none]
  · rfl

def Placed (size wp : ℕ) (data : List UInt8) (mem mem' : ℤ → UInt8) : Prop :=
  Holds size (fun i => mem' i) wp data ∧
    ∀ x < size, (∀ j < data.length, (wp + j) % size ≠ x) → mem' x = mem x

theorem store_ring (hwp : wp < size) (hfits : data.length ≤ size)
    (hlong : data.length > size - wp) :
    Placed size wp data mem
      (store (store mem wp (data.take (size - wp))) 0 (data.drop (size - wp))) := by
  have hfirst : ∀ x, wp ≤ x → store (store mem wp (data.take (size - wp))) (0 : ℕ)
      (data.drop (size - wp)) x = store mem wp (data.take (size - wp)) x := fun x hx =>
    store_outside (.inr (by rw [length_drop]; omega))
  constructor
  · intro i x hx
    have hi : i < data.length := (List.getElem?_eq_some_iff.mp hx).1
    rw [slot_eq hwp (by omega)]
    beta_reduce
    split_ifs with hlt
    · rw [← cast_zero, hfirst _ (by omega)]
      apply store_inside
      rwa [getElem?_take_of_lt (by omega)]
    · obtain ⟨j, rfl⟩ := Nat.exists_eq_add_of_le (by omega : size - wp ≤ i)
      have hslot : wp + (size - wp + j) - size = 0 + j := by omega
      rw [hslot, ← cast_zero]
      apply store_inside
      rwa [getElem?_drop]
  · intro x hx hfree
    have hlow : x < wp := by
      by_contra hle
      have hslot := hfree (x - wp) (by omega)
      rw [Nat.add_sub_cancel' (not_lt.mp hle), Nat.mod_eq_of_lt hx] at hslot
      exact hslot rfl
    have hhigh : data.length - (size - wp) ≤ x := by
      by_contra hin
      have hslot := hfree (size - wp + x) (by omega)
      rw [slot_eq hwp (by omega), if_neg (by omega)] at hslot
      omega
    rw [← cast_zero, store_outside (.inr (by rw [length_drop]; omega)), store_outside (.inl hlow)]

theorem store_straight (hwp : wp < size) (hshort : data.length ≤ size - wp) :
    Placed size wp data mem (store mem wp data) := by
  constructor
  · intro i x hx
    have hi : i < data.length := (List.getElem?_eq_some_iff.mp hx).1
    rw [mod_eq_of_lt (by omega)]
    exact store_inside hx
  · intro x hx hfree
    apply store_outside
    by_contra hin
    have hslot := hfree (x - wp) (by omega)
    rw [Nat.add_sub_cancel' (by omega), Nat.mod_eq_of_lt hx] at hslot
    exact hslot rfl

theorem load_unread {n : ℕ} (h : Holds size (fun i => mem i) rp unread) (hn : n ≤ unread.length)
    (hend : rp + n ≤ size) : load mem rp n = unread.take n := by
  apply ext_getElem?
  intro i
  by_cases hi : i < n
  · have hmem : unread[i]? = some (unread[i]) := getElem?_eq_getElem (by omega)
    have hslot := h i _ hmem
    rw [mod_eq_of_lt (by omega)] at hslot
    rw [getElem?_take_of_lt hi, hmem, ← hslot, load, getElem?_map,
      getElem?_range hi, Option.map_some]
    rfl
  · rw [getElem?_eq_none (by simp [load]; omega), getElem?_eq_none (by simp; omega)]

section Passes

def Inside (l : Layout) (touched : List (ℤ × ℕ)) : Prop :=
  ∀ x ∈ touched, 0 ≤ x.1 ∧ x.1 + x.2 ≤ l.bufSize

theorem Queue.read (h : Queue l p rp unread) {length : ℕ} (hbytes : unread.length ≠ 0)
    (hend : rp + min unread.length length ≤ l.bufSize) :
    (readPass l p length).bytes = unread.take (min unread.length length) ∧
      Queue l (readPass l p length).pipe ((rp + min unread.length length) % l.bufSize)
        (unread.drop (min unread.length length)) ∧
      Inside l (readPass l p length).touched := by
  have hshort := h.short
  have hsmall := h.small
  have hpos : 0 < l.bufSize := by omega
  have hlen := h.readLen_eq hbytes length
  have hroom := h.readRoom
  have hfits : ¬ min unread.length length > l.bufSize - rp := by omega
  have hpass : readPass l p length = ⟨load p.mem rp (min unread.length length),
        { p with readPos := ((rp + min unread.length length) % l.bufSize : ℕ) },
        [(rp, min unread.length length)]⟩ := by
    simp only [readPass, hlen, hroom, hfits, ↓reduceIte]
    rw [h.readPos, advance_nat (by omega)]
  rw [hpass]
  refine ⟨load_unread h.holds (min_le_left ..) hend, ⟨hsmall, ?_, mod_lt _ hpos, rfl, ?_, ?_⟩, ?_⟩
  · rw [length_drop]
    omega
  · rw [List.length_drop, Nat.mod_add_mod, Nat.add_assoc, Nat.add_sub_cancel' (min_le_left ..)]
    exact h.writePos
  · exact h.holds.drop _
  · intro x hx
    rw [mem_singleton.mp hx]
    exact ⟨Int.natCast_nonneg _, by omega⟩

variable {length : ℕ}

variable (h : Queue l p rp unread)
include h

theorem Queue.read_over (hbytes : unread.length ≠ 0)
    (hend : l.bufSize < rp + min unread.length length) :
    ¬ Inside l (readPass l p length).touched := by
  have hrp := h.rp_lt
  have hlen := h.readLen_eq hbytes length
  have hroom := h.readRoom
  have hover : min unread.length length > l.bufSize - rp := by omega
  intro hinside
  have hfield := hinside (l.field, min unread.length length - (l.bufSize - rp)) (by
    simp only [readPass, hlen, hroom, hover, ↓reduceIte]
    simp)
  have hfront := l.front
  exact absurd hfield.1 (not_le.mpr hfront)

theorem Queue.read_empty (hempty : unread.length = 0)
    (hlength : length ≠ 0) : (readPass l p length).bytes ≠ [] := by
  have hsmall := h.small
  have hlarge := word_large l
  have htwo := l.two_le
  have hlen : readLen l p length = min l.bufSize length := by
    rw [readLen, h.available, if_pos hempty, limited_nat (by omega)]
  intro hnil
  have hcount := congrArg List.length hnil
  simp only [readPass, hlen] at hcount
  split_ifs at hcount
  all_goals
    simp [load] at hcount
    omega

theorem Queue.write (hlen : writeLen l p noblock data.length = data.length)
    (hfree : unread.length + data.length < l.bufSize) :
    (writePass l p noblock data).bytes = data ∧
      Queue l (writePass l p noblock data).pipe rp (unread ++ data) ∧
      Inside l (writePass l p noblock data).touched := by
  have hsmall := h.small
  have hpos : 0 < l.bufSize := by omega
  obtain ⟨wp, hwp⟩ : ∃ wp, wp = (rp + unread.length) % l.bufSize := ⟨_, rfl⟩
  have hlt : wp < l.bufSize := hwp ▸ mod_lt _ hpos
  have hwrite : p.writePos = (wp : ℕ) := by rw [h.writePos, hwp]
  have hadvance : advance l wp data.length = ((rp + (unread ++ data).length) % l.bufSize : ℕ) := by
    rw [advance_nat (by omega), hwp, mod_add_mod, add_assoc, length_append]
  -- the slots of the new bytes are not those of the unread ones
  have hother : ∀ i < unread.length, ∀ j < data.length,
      (wp + j) % l.bufSize ≠ (rp + i) % l.bufSize := by
    intro i hi j hj
    rw [hwp, mod_add_mod, add_assoc]
    exact slot_ne (by omega) (by omega) (by omega)
  obtain ⟨mem, touched, hpass, ⟨hnew, hkeep⟩, hinside⟩ : ∃ mem touched, writePass l p noblock data =
        ⟨data, { p with writePos := advance l wp data.length, mem }, touched⟩ ∧
      Placed l.bufSize wp data p.mem mem ∧ Inside l touched := by
    simp only [writePass, hlen, hwrite, room_nat hlt hsmall, take_length]
    split_ifs with hover
    · refine ⟨_, _, rfl, store_ring hlt (by omega) hover, ?_⟩
      exact forall_mem_cons.mpr ⟨by omega, forall_mem_singleton.mpr (by omega)⟩
    · exact ⟨_, _, rfl, store_straight hlt (by omega), forall_mem_singleton.mpr (by omega)⟩
  rw [hpass, hadvance]
  refine ⟨rfl, ⟨hsmall, by rwa [length_append], h.rp_lt, h.readPos, rfl, ?_⟩, hinside⟩
  apply h.holds.append (hwp ▸ hnew)
  intro i hi
  exact hkeep _ (mod_lt _ hpos) (hother i hi)

theorem Queue.write_nothing (hlen : writeLen l p noblock data.length = 0) :
    (writePass l p noblock data).pipe = p ∧ (writePass l p noblock data).bytes = [] := by
  have hsmall := h.small
  have htwo := l.two_le
  have hstore : store p.mem p.writePos [] = p.mem := by
    funext x
    simp [store]
  have hlt : (rp + unread.length) % l.bufSize < l.bufSize := mod_lt _ (by omega)
  have hadvance : advance l p.writePos 0 = p.writePos := by
    rw [h.writePos, advance_nat (by omega), add_zero, mod_mod]
  simp only [writePass, hlen, not_lt_zero, gt_iff_lt, ↓reduceIte, take_zero, hstore,
    hadvance, and_self]

end Passes

theorem fifoWrite_succ (hdata : data ≠ []) (length fuel : ℕ) :
    fifoWrite l noblock length (fuel + 1) p data = match fifoWritePass l p noblock data with
      | none => some 0
      | some pass => fifoWrite l noblock length fuel pass.pipe (data.drop pass.bytes.length) := by
  obtain ⟨byte, rest, rfl⟩ := exists_cons_of_ne_nil hdata
  rfl

theorem fifoWrite_nil (length fuel : ℕ) : fifoWrite l noblock length fuel p [] = some length := by
  cases fuel <;> rfl

theorem Queue.full_ends (h : Queue l p rp unread) (hblocks : p.blocks noblock = false)
    (hfull : unread.length = l.bufSize - 1) (hdata : data ≠ []) :
    (fifoWrite l noblock data.length 1 p data).isSome := by
  have hpass : fifoWritePass l p noblock data = none := if_pos ⟨hblocks, h.full_iff.mpr hfull⟩
  rw [fifoWrite_succ hdata, hpass]
  rfl

theorem taken_ends {pass : Pass} (hpass : fifoWritePass l p noblock data = some pass)
    (hbytes : pass.bytes = data) (hdata : data ≠ []) :
    (fifoWrite l noblock data.length 1 p data).isSome := by
  rw [fifoWrite_succ hdata, hpass]
  simp only [hbytes, drop_length, fifoWrite_nil, Option.isSome_some]

theorem Queue.empty_goes_on (h : Queue l p rp unread) (hblocks : p.blocks noblock = false)
    (hempty : unread.length = 0) (hdata : data ≠ []) (length fuel : ℕ) :
    fifoWrite l noblock length fuel p data = none := by
  have htwo := l.two_le
  have hnotfull : ¬ (p.blocks noblock = false ∧ p.readPos = (p.writePos + 1).tmod l.bufSize) := by
    rw [h.full_iff]
    omega
  obtain ⟨hpipe, hbytes⟩ := h.write_nothing (h.writeLen_empty hblocks hempty data.length)
  induction fuel with
  | zero =>
    obtain ⟨byte, rest, rfl⟩ := exists_cons_of_ne_nil hdata
    rfl
  | succ fuel ih =>
    rw [fifoWrite_succ hdata, fifoWritePass, if_neg hnotfull]
    simp only [hpipe, hbytes, length_nil, drop_zero]
    exact ih

variable {op : Op}

structure Inv (l : Layout) (s : System) : Prop where
  queue : ∃ rp unread, Queue l s.pipe rp unread ∧ s.accepted = s.returned ++ unread
  inside : Inside l s.touched
  ends : ∀ x ∈ s.alone, ∃ length fuel, (fifoWrite l x.2.1 length fuel x.1 x.2.2).isSome

theorem Inv.sound (h : Inv l s) : Sound l s := by
  obtain ⟨rp, unread, hqueue, haccepted⟩ := h.queue
  have hshort := hqueue.short
  constructor
  case stream =>
    rw [haccepted]
    exact prefix_append ..
  case bounded =>
    rw [haccepted, length_append]
    omega
  case inside => exact h.inside
  case ends => exact h.ends

theorem unread_length (h : s.accepted = s.returned ++ unread) : s.unread = unread.length := by
  rw [System.unread, h, List.length_append, Nat.add_sub_cancel_left]

theorem inside_append {xs ys : List (ℤ × ℕ)} (hxs : Inside l xs) (hys : Inside l ys) :
    Inside l (xs ++ ys) :=
  forall_mem_append.mpr ⟨hxs, hys⟩

theorem inv_read {length : ℕ} (h : Inv l s) (hguard : guard l s (.read length noblock)) :
    ∃ t, step l s (.read length noblock) = some t ∧ Inv l t := by
  obtain ⟨rp, unread, hqueue, haccepted⟩ := h.queue
  have hunread := unread_length haccepted
  refine ⟨_, rfl, ?_⟩
  -- nothing is read from an empty ring, or if nothing is asked for
  have hnothing : fifoRead l s.pipe length noblock = ⟨[], s.pipe, []⟩ → Inv l { s with
        pipe := (fifoRead l s.pipe length noblock).pipe
        returned := s.returned ++ (fifoRead l s.pipe length noblock).bytes
        touched := s.touched ++ (fifoRead l s.pipe length noblock).touched } := by
    intro hread
    rw [hread]
    simp only [append_nil]
    exact ⟨⟨rp, unread, hqueue, haccepted⟩, h.inside, h.ends⟩
  by_cases hzero : length = 0
  · exact hnothing (if_pos hzero)
  by_cases hempty : s.pipe.blocks noblock = false ∧ s.pipe.readPos = s.pipe.writePos
  · exact hnothing (by rw [fifoRead, if_neg hzero, if_pos hempty])
  obtain ⟨hbytes, hend⟩ : s.unread ≠ 0 ∧
      (min s.unread length : ℕ) ≤ (l.bufSize : ℤ) - s.pipe.readPos := by
    rcases hguard with hlength | ⟨hblocks, hnone⟩ | hbytes
    · exact absurd hlength hzero
    · exact absurd ⟨hblocks, hqueue.empty_iff.mpr (hunread ▸ hnone)⟩ hempty
    · exact hbytes
  rw [hunread] at hbytes hend
  rw [hqueue.readPos] at hend
  obtain ⟨htaken, hqueue', hinside⟩ := hqueue.read hbytes
    (by omega : rp + min unread.length length ≤ l.bufSize)
  rw [fifoRead, if_neg hzero, if_neg hempty]
  refine ⟨⟨_, _, hqueue', ?_⟩, inside_append h.inside hinside, h.ends⟩
  simp only [htaken]
  rw [haccepted, append_assoc, take_append_drop]

theorem inv_write (h : Inv l s) (hguard : guard l s (.write data noblock)) :
    ∃ t, step l s (.write data noblock) = some t ∧ Inv l t := by
  obtain ⟨rp, unread, hqueue, haccepted⟩ := h.queue
  have hunread := unread_length haccepted
  by_cases hdata : data = []
  · exact ⟨s, if_pos hdata, h⟩
  -- the call returns, so it may be noted
  have halone : (∃ length fuel, (fifoWrite l noblock length fuel s.pipe data).isSome) →
      ∀ x ∈ (if s.pipe.blocks noblock then s.alone else s.alone ++ [(s.pipe, noblock, data)]),
        ∃ length fuel, (fifoWrite l x.2.1 length fuel x.1 x.2.2).isSome := by
    intro hends
    split_ifs
    · exact h.ends
    · exact forall_mem_append.mpr ⟨h.ends, forall_mem_singleton.mpr hends⟩
  by_cases hfull : s.pipe.blocks noblock = false ∧
      s.pipe.readPos = (s.pipe.writePos + 1).tmod l.bufSize
  · have hpass : fifoWritePass l s.pipe noblock data = none := if_pos hfull
    refine ⟨_, by rw [step, if_neg hdata, hpass], ?_⟩
    exact ⟨⟨rp, unread, hqueue, haccepted⟩, h.inside,
      halone ⟨_, _, hqueue.full_ends hfull.1 (hqueue.full_iff.mp hfull.2) hdata⟩⟩
  obtain ⟨hmode, hfree⟩ : (s.pipe.blocks noblock = true ∨ unread.length ≠ 0) ∧
      unread.length + data.length ≤ l.bufSize - 1 := by
    rw [← hunread]
    rcases hguard with hnil | ⟨hblocks, hnone⟩ | hfits
    · exact absurd hnil hdata
    · exact absurd ⟨hblocks, hqueue.full_iff.mpr (hunread ▸ hnone)⟩ hfull
    · exact hfits
  have htwo := l.two_le
  have hlen : writeLen l s.pipe noblock data.length = data.length := by
    have hge := hqueue.writeLen_ge hmode data.length
    have hle := writeLen_le (l := l) s.pipe noblock data.length
    omega
  have hpass : fifoWritePass l s.pipe noblock data = some (writePass l s.pipe noblock data) :=
    if_neg hfull
  obtain ⟨htaken, hqueue', hinside⟩ := hqueue.write hlen (by omega)
  refine ⟨_, by rw [step, if_neg hdata, hpass], ?_⟩
  refine ⟨⟨rp, _, hqueue', ?_⟩, inside_append h.inside hinside,
    halone ⟨_, _, taken_ends hpass htaken hdata⟩⟩
  simp only [htaken]
  rw [haccepted, append_assoc]

theorem inv_step (h : Inv l s) (hguard : guard l s op) : ∃ t, step l s op = some t ∧ Inv l t := by
  cases op with
  | read length noblock => exact inv_read h hguard
  | write data noblock => exact inv_write h hguard

theorem guard_of_sound (h : Inv l s) (hstep : step l s op = some t) (ht : Sound l t) :
    guard l s op := by
  obtain ⟨rp, unread, hqueue, haccepted⟩ := h.queue
  have hunread := unread_length haccepted
  have hshort := hqueue.short
  cases op with
  | read length noblock =>
    cases hstep
    by_cases hzero : length = 0
    · exact .inl hzero
    by_cases hempty : s.pipe.blocks noblock = false ∧ s.pipe.readPos = s.pipe.writePos
    · exact .inr (.inl ⟨hempty.1, hunread ▸ hqueue.empty_iff.mp hempty.2⟩)
    have hpass : fifoRead l s.pipe length noblock = readPass l s.pipe length := by
      rw [fifoRead, if_neg hzero, if_neg hempty]
    rw [hpass] at ht
    have hbytes : unread.length ≠ 0 := by
      -- otherwise more has been returned than was accepted
      intro hnone
      have hreturned := hqueue.read_empty hnone hzero
      have hcount := ht.stream.length_le
      simp only [haccepted, length_append, hnone] at hcount
      exact hreturned (length_eq_zero_iff.mp (by omega))
    refine .inr (.inr ⟨hunread ▸ hbytes, ?_⟩)
    by_contra hend
    rw [hunread, hqueue.readPos] at hend
    apply hqueue.read_over hbytes (by omega : l.bufSize < rp + min unread.length length)
    exact fun x hx => ht.inside x (mem_append_right _ hx)
  | write data noblock =>
    by_cases hdata : data = []
    · exact .inl hdata
    by_cases hfull : s.pipe.blocks noblock = false ∧
        s.pipe.readPos = (s.pipe.writePos + 1).tmod l.bufSize
    · exact .inr (.inl ⟨hfull.1, hunread ▸ hqueue.full_iff.mp hfull.2⟩)
    have hpass : fifoWritePass l s.pipe noblock data =
        some (writePass l s.pipe noblock data) := if_neg hfull
    rw [step, if_neg hdata, hpass] at hstep
    cases hstep
    have hmode : s.pipe.blocks noblock = true ∨ unread.length ≠ 0 := by
      by_contra hnone
      obtain ⟨hblocks, hempty⟩ := not_or.mp hnone
      rw [Bool.not_eq_true] at hblocks
      have hmem : (s.pipe, noblock, data) ∈ (if s.pipe.blocks noblock then s.alone
            else s.alone ++ [(s.pipe, noblock, data)]) := by
        simp [hblocks]
      obtain ⟨length, fuel, hends⟩ := ht.ends _ hmem
      rw [hqueue.empty_goes_on hblocks (not_not.mp hempty) hdata] at hends
      cases hends
    refine .inr (.inr ⟨hunread ▸ hmode, ?_⟩)
    -- otherwise there are more unread bytes than there may be
    by_contra hmany
    have hge := hqueue.writeLen_ge hmode data.length
    have hbytes : (writePass l s.pipe noblock data).bytes =
        data.take (writeLen l s.pipe noblock data.length) := by
      rw [writePass]
      split_ifs <;> rfl
    have hcount := ht.bounded
    simp only [hbytes, haccepted, length_append, length_take] at hcount
    omega

/-- Over any passes on a new pipe: every one meets the guard exactly if the pipe is a byte stream
after each of them. -/
theorem pipes_stream_iff (hsmall : l.bufSize ≤ 2 ^ 30) (blocking : Bool) (mem : ℤ → UInt8)
    (ops : List Op) :
    Along (step l) (guard l) (newPipe blocking mem) ops ↔
      ∀ bs, bs <+: ops → ∃ t, run (step l) (newPipe blocking mem) bs = some t ∧ Sound l t := by
  have htwo := l.two_le
  have hqueue : Queue l (newPipe blocking mem).pipe 0 [] :=
    ⟨hsmall, by simp; omega, by omega, rfl, by simp [newPipe], holds_nil⟩
  have hinv : Inv l (newPipe blocking mem) :=
    ⟨⟨0, [], hqueue, rfl⟩, (fun x hx => by cases hx), (fun x hx => by cases hx)⟩
  have hany : Along (step l) (fun _ _ => True) (newPipe blocking mem) ops :=
    along_of_forall fun _ _ _ => trivial
  exact along_iff_prefixes (fun _ _ h _ => inv_step h) (fun _ => Inv.sound)
    (fun _ _ _ h _ => guard_of_sound h) hinv hany

theorem two_le_four : 2 ≤ 4 := by decide

theorem neg_sixtyFour_lt : (-64 : ℤ) < 0 := by decide

def ring4 : Layout := ⟨4, -64, 32, two_le_four, neg_sixtyFour_lt, le_rfl⟩

def aroundRing : List Op :=
  [.write [1, 2, 3] false, .write [4] true, .read 2 false, .write [5, 6] true, .read 2 false,
    .read 9 true, .read 9 true]

theorem aroundRing_streams : Along (step ring4) (guard ring4) (newPipe true fun _ => 0) aroundRing ∧
    ∀ bs, bs <+: aroundRing → ∃ t, run (step ring4) (newPipe true fun _ => 0) bs = some t ∧
      Sound ring4 t := by
  have hguard : Along (step ring4) (guard ring4) (newPipe true fun _ => 0) aroundRing := by decide
  exact ⟨hguard, (pipes_stream_iff (by decide) true (fun _ => 0) aroundRing).mp hguard⟩

/-- A write fills the ring to the last byte, a read takes bytes of the pipe's fields, and a
non-blocking write does not return. -/
theorem ring4_unsound :
    ((run (step ring4) (newPipe true fun _ => 0) [.write [1, 2, 3, 4] false]).map fun t =>
      (t.accepted.length, t.returned.length)) = some (4, 0) ∧
    ((run (step ring4) (newPipe true fun _ => 0) [.write [1, 2, 3] false, .read 3 false,
      .write [4, 5] false, .read 2 false]).map fun t => t.touched) =
      some [(0, 3), (0, 3), (3, 1), (0, 1), (3, 1), (-64, 1)] ∧
    ∀ fuel, fifoWrite ring4 true 1 fuel (newPipe true fun _ => 0).pipe [1] = none := by
  refine ⟨by decide, by decide, fun fuel => ?_⟩
  have hqueue : Queue ring4 (newPipe true fun _ => 0).pipe 0 [] :=
    ⟨by decide, by decide, by decide, rfl, rfl, holds_nil⟩
  exact hqueue.empty_goes_on rfl rfl (by decide) 1 fuel

end Fifo
