import Acess2.BufferCopies
import Acess2.MachineWords

/-! Transfers of bytes by whole blocks (`drvutil_disk.c`).
A request is cut into the rest of its first block, whole blocks, and the start of its last one.
The parts of blocks go through a temporary buffer; a write reads the block first. -/
namespace DrvUtilDisk

open BufferCopies List MachineWords Nat

abbrev Data := ℕ → UInt8

/-- `ReadBlocks` and `WriteBlocks`; what they return, and what they do to the device -/
structure Callbacks (D : Type) where
  readBlocks : D → ℕ → ℕ → Data → ℕ × Data × D
  writeBlocks : D → ℕ → ℕ → Data → ℕ × D

variable {D : Type} (w : ℕ) (cb : Callbacks D) (blockSize : ℕ)

/-- The last part of `DrvUtil_ReadBlock`; `p` is how far `Buffer` has moved. -/
def readTail (length leading p : ℕ) (block num : ℕ) (tailings : ℤ) (tmp buffer : Data) (d : D) :
    ℕ × Data × D :=
  if tailings ≠ 0 then
    match cb.readBlocks d ((block + num) % 2 ^ 64) 1 tmp with
    | (ret, tmp, d) =>
      if ret ≠ 1 then (toWord w (leading + num * blockSize), buffer, d)
      else (length, memcpy buffer (p + num * blockSize) (toWord w tailings) tmp, d)
  else (length, buffer, d)

/-- `DrvUtil_ReadBlock` from the central blocks on -/
def readCentral (length leading p : ℕ) (block num : ℕ) (tailings : ℤ) (tmp buffer : Data) (d : D) :
    ℕ × Data × D :=
  if num ≠ 0 then
    match cb.readBlocks d block (toWord w num) (behind buffer p) with
    | (ret, rest, d) =>
      let buffer := splice buffer p rest
      if ret ≠ num then (toWord w (leading + ret * blockSize), buffer, d)
      else readTail w cb blockSize length leading p block num tailings tmp buffer d
  else readTail w cb blockSize length leading p block num tailings tmp buffer d

/-- `DrvUtil_ReadBlock`; `tmp` is what stands in its temporary buffer. -/
def drvUtilReadBlock (d : D) (start length : ℕ) (buffer tmp : Data) : ℕ × Data × D :=
  let block := start / blockSize
  let offset := toInt (start - block * blockSize)
  let leading := toWord w (blockSize - offset)
  if offset ≠ 0 then
    let leading := if leading > length then length else leading
    match cb.readBlocks d block 1 tmp with
    | (ret, tmp, d) =>
      if ret ≠ 1 then (0, buffer, d)
      else
        let buffer := memcpy buffer 0 leading (behind tmp offset.toNat)
        if leading = length then (leading, buffer, d)
        else
          let num := (length - leading) / blockSize
          readCentral w cb blockSize length leading leading ((block + 1) % 2 ^ 64) num
            (toInt (length - num * blockSize - leading)) tmp buffer d
  else
    readCentral w cb blockSize length 0 0 block (length / blockSize)
      (toInt (length % blockSize : ℕ))
      tmp buffer d

def writeTail (length leading p : ℕ) (block num : ℕ) (tailings : ℤ) (tmp buffer : Data) (d : D) :
    ℕ × D :=
  if tailings ≠ 0 then
    let block := (block + num) % 2 ^ 64
    match cb.readBlocks d block 1 tmp with
    | (ret, tmp, d) =>
      if ret ≠ 1 then (toWord w (leading + num * blockSize), d)
      else
        let tmp := memcpy tmp 0 (toWord w tailings) (behind buffer (p + num * blockSize))
        match cb.writeBlocks d block 1 tmp with
        | (ret, d) =>
          if ret ≠ 1 then (toWord w (leading + num * blockSize), d) else (length, d)
  else (length, d)

def writeCentral (length leading p : ℕ) (block num : ℕ) (tailings : ℤ) (tmp buffer : Data)
    (d : D) : ℕ × D :=
  if num ≠ 0 then
    match cb.writeBlocks d block (toWord w num) (behind buffer p) with
    | (ret, d) =>
      if ret ≠ num then (toWord w (leading + ret * blockSize), d)
      else writeTail w cb blockSize length leading p block num tailings tmp buffer d
  else writeTail w cb blockSize length leading p block num tailings tmp buffer d

/-- `DrvUtil_WriteBlock`. For an aligned start it leaves `leading` at the size of a block, which
is part of what it returns if a callback fails. -/
def drvUtilWriteBlock (d : D) (start length : ℕ) (buffer tmp : Data) : ℕ × D :=
  let block := start / blockSize
  let offset := toWord w (start - block * blockSize)
  let leading := toWord w (blockSize - offset)
  if offset ≠ 0 then
    let leading := if leading > length then length else leading
    match cb.readBlocks d block 1 tmp with
    | (ret, tmp, d) =>
      if ret ≠ 1 then (0, d)
      else
        let tmp := memcpy tmp offset leading buffer
        match cb.writeBlocks d block 1 tmp with
        | (ret, d) =>
          if ret ≠ 1 then (0, d)
          else if leading = length then (leading, d)
          else
            let num := (length - leading) / blockSize
            writeCentral w cb blockSize length leading leading ((block + 1) % 2 ^ 64) num
              (toInt (length - num * blockSize - leading)) tmp buffer d
  else
    writeCentral w cb blockSize length leading 0 block (length / blockSize)
      (toInt (length % blockSize : ℕ)) tmp buffer d

/-- The bytes of a volume, and the blocks of it that have been read or written -/
structure Disk where
  bytes : Data
  accessed : List ℕ

def blockRange (block count : ℕ) : List ℕ := (List.range count).map (block + ·)

def faithful (size : ℕ) : Callbacks Disk where
  readBlocks d block count buffer :=
    (count, memcpy buffer 0 (count * size) (behind d.bytes (block * size)),
      { d with accessed := d.accessed ++ blockRange block count })
  writeBlocks d block count src :=
    (count, ⟨memcpy d.bytes (block * size) (count * size) src,
      d.accessed ++ blockRange block count⟩)

/-- Only blocks from `lo` on that start before the byte `hi` have been accessed in between. -/
def Within (size lo hi : ℕ) (d d' : Disk) : Prop :=
  ∀ b ∈ d'.accessed, b ∈ d.accessed ∨ (lo ≤ b ∧ b * size < hi)

variable {size lo hi : ℕ} {d d₁ d₂ : Disk}

theorem Within.refl (d : Disk) : Within size lo hi d d := fun _ hb => .inl hb

theorem Within.trans (h₁ : Within size lo hi d d₁) (h₂ : Within size lo hi d₁ d₂) :
    Within size lo hi d d₂ := by
  intro b hb
  rcases h₂ b hb with hb | hb
  · exact h₁ b hb
  · exact .inr hb

theorem within_blocks {block count : ℕ} {bytes : Data} (hlo : lo ≤ block)
    (hhi : ∀ j < count, (block + j) * size < hi) :
    Within size lo hi d ⟨bytes, d.accessed ++ blockRange block count⟩ := by
  intro b hb
  rcases mem_append.mp hb with hb | hb
  · exact .inl hb
  · obtain ⟨j, hj, rfl⟩ := mem_map.mp hb
    exact .inr ⟨by omega, hhi j (mem_range.mp hj)⟩

section Requests

/-- What is left of a request behind `leading` bytes: whole blocks, and `t` bytes of the next -/
structure Request (w size start length leading block num t : ℕ) : Prop where
  small : size < 2 ^ 31
  aligned : block * size = start + leading
  parts : length = leading + num * size + t
  tail : t < size
  limit : start + length < 2 ^ 64
  word : length < 2 ^ w

variable {w} {start length leading block num t : ℕ}

section Parts

variable (h : Request w size start length leading block num t)
include h

theorem Request.last_start : (block + num) * size = start + (leading + num * size) := by
  rw [add_mul, h.aligned, add_assoc]

theorem Request.last_mod : (block + num) % 2 ^ 64 = block + num := by
  have hle : block + num ≤ (block + num) * size :=
    Nat.le_mul_of_pos_right _ (Nat.zero_lt_of_lt h.tail)
  have hlast := h.last_start
  have hparts := h.parts
  have hlimit := h.limit
  exact mod_eq_of_lt (by omega)

theorem Request.block_mod : block % 2 ^ 64 = block := by
  have hlast := h.last_mod
  exact mod_eq_of_lt (by omega)

theorem Request.first_le : start / size ≤ block := by
  have hpos : 0 < size := zero_lt_of_lt h.tail
  have hstart : start ≤ block * size := by
    rw [h.aligned]
    exact Nat.le_add_right ..
  calc start / size ≤ block * size / size := Nat.div_le_div_right hstart
    _ = block := Nat.mul_div_cancel _ hpos

theorem Request.num_word : toWord w num = num := by
  have hle : num ≤ num * size := Nat.le_mul_of_pos_right _ (Nat.zero_lt_of_lt h.tail)
  have hparts := h.parts
  exact toWord_of_lt (lt_of_le_of_lt (by omega) h.word)

theorem Request.tail_word : toWord w t = t := by
  have hparts := h.parts
  exact toWord_of_lt (lt_of_le_of_lt (by omega) h.word)

theorem Request.within_last (ht : t ≠ 0) (bytes : Data) :
    Within size (start / size) (start + length) d
      ⟨bytes, d.accessed ++ blockRange (block + num) 1⟩ := by
  apply within_blocks (h.first_le.trans (Nat.le_add_right ..))
  intro j hj
  have hlast := h.last_start
  have hparts := h.parts
  rw [lt_one_iff.mp hj, add_zero]
  omega

theorem Request.within_central (bytes : Data) : Within size (start / size) (start + length) d
      ⟨bytes, d.accessed ++ blockRange block num⟩ := by
  apply within_blocks h.first_le
  intro j hj
  have hlast := h.last_start
  have hparts := h.parts
  have hmul : (block + (j + 1)) * size ≤ (block + num) * size := mul_le_mul_right _ (by omega)
  have hpos : 0 < size := zero_lt_of_lt h.tail
  rw [← add_assoc, succ_mul] at hmul
  omega

theorem Request.toInt_tail : toInt t = t :=
  toInt_of_lt (lt_trans h.tail h.small)

theorem Request.tail_int : toInt ((length : ℤ) - num * size - leading) = t := by
  have hparts : (length : ℤ) = leading + num * size + t := by
    rw [h.parts]
    rfl
  have heq : (length : ℤ) - num * size - leading = t := by omega
  rw [heq, h.toInt_tail]

theorem readTail_faithful (buffer tmp : Data) :
    ∃ d', readTail w (faithful size) size length leading leading block num t tmp
        (memcpy buffer 0 (leading + num * size) (behind d.bytes start)) d =
        (length, memcpy buffer 0 length (behind d.bytes start), d') ∧
      d'.bytes = d.bytes ∧ Within size (start / size) (start + length) d d' := by
  by_cases ht : t = 0
  · refine ⟨d, ?_, rfl, Within.refl d⟩
    have hlength : leading + num * size = length := by
      rw [h.parts, ht, add_zero]
    simp [readTail, ht, hlength]
  refine ⟨⟨d.bytes, d.accessed ++ blockRange (block + num) 1⟩, ?_, rfl, h.within_last ht d.bytes⟩
  have hcopy : memcpy (memcpy buffer 0 (leading + num * size) (behind d.bytes start))
      (leading + num * size) t
      (memcpy tmp 0 (1 * size) (behind d.bytes ((block + num) * size))) =
      memcpy buffer 0 length (behind d.bytes start) := by
    rw [h.parts]
    refine Eq.trans (memcpy_congr fun i hi => ?_) memcpy_append
    have htail := h.tail
    rw [memcpy_start (by omega), h.last_start, behind_behind]
  simp only [readTail, faithful, h.last_mod, h.tail_word, ne_eq, Int.natCast_eq_zero, ht,
    not_false_eq_true, not_true_eq_false, ↓reduceIte, hcopy]

theorem readCentral_faithful (buffer tmp : Data) :
    ∃ d', readCentral w (faithful size) size length leading leading block num t tmp
        (memcpy buffer 0 leading (behind d.bytes start)) d =
        (length, memcpy buffer 0 length (behind d.bytes start), d') ∧
      d'.bytes = d.bytes ∧ Within size (start / size) (start + length) d d' := by
  by_cases hnum : num = 0
  · subst hnum
    obtain ⟨d', htail, hrest⟩ := readTail_faithful (d := d) h buffer tmp
    rw [zero_mul, add_zero] at htail
    exact ⟨d', by simpa only [readCentral, ne_eq, not_true_eq_false, ↓reduceIte] using htail, hrest⟩
  have hcopy : splice (memcpy buffer 0 leading (behind d.bytes start)) leading
      (memcpy (behind (memcpy buffer 0 leading (behind d.bytes start)) leading) 0 (num * size)
        (behind d.bytes (block * size))) =
      memcpy buffer 0 (leading + num * size) (behind d.bytes start) := by
    rw [splice_memcpy, h.aligned, ← behind_behind, memcpy_append]
  obtain ⟨d', htail, hbytes, hwithin⟩ := readTail_faithful
    (d := ⟨d.bytes, d.accessed ++ blockRange block num⟩) h buffer tmp
  refine ⟨d', ?_, hbytes, (h.within_central d.bytes).trans hwithin⟩
  simp only [readCentral, faithful, h.num_word, ne_eq, hnum, not_false_eq_true,
    not_true_eq_false, ↓reduceIte, hcopy]
  exact htail

theorem writeTail_faithful (lead : ℕ) (buffer tmp : Data) {bytes : Data}
    (hbytes : d.bytes = memcpy bytes start (leading + num * size) buffer) :
    ∃ d', writeTail w (faithful size) size length lead leading block num t tmp buffer d =
        (length, d') ∧
      d'.bytes = memcpy bytes start length buffer ∧
      Within size (start / size) (start + length) d d' := by
  by_cases ht : t = 0
  · refine ⟨d, by simp [writeTail, ht], ?_, Within.refl d⟩
    rw [hbytes, h.parts, ht, add_zero]
  have hpatch : memcpy d.bytes ((block + num) * size) (1 * size)
      (memcpy (memcpy tmp 0 (1 * size) (behind d.bytes ((block + num) * size))) 0 t
        (behind buffer (leading + num * size))) = memcpy bytes start length buffer := by
    have htail := h.tail
    rw [memcpy_patch (by omega), add_zero, hbytes, h.last_start, memcpy_memcpy, ← h.parts]
  refine ⟨⟨memcpy bytes start length buffer, d.accessed ++ blockRange (block + num) 1 ++
    blockRange (block + num) 1⟩, ?_, rfl,
    (h.within_last ht d.bytes).trans (h.within_last ht _)⟩
  simp only [writeTail, faithful, h.last_mod, h.tail_word, ne_eq, Int.natCast_eq_zero, ht,
    not_false_eq_true, not_true_eq_false, ↓reduceIte, hpatch]

theorem writeCentral_faithful (lead : ℕ) (buffer tmp : Data) {bytes : Data}
    (hbytes : d.bytes = memcpy bytes start leading buffer) :
    ∃ d', writeCentral w (faithful size) size length lead leading block num t tmp buffer d =
        (length, d') ∧
      d'.bytes = memcpy bytes start length buffer ∧
      Within size (start / size) (start + length) d d' := by
  by_cases hnum : num = 0
  · subst hnum
    obtain ⟨d', htail, hrest⟩ := writeTail_faithful h lead buffer tmp (by simpa using hbytes)
    exact ⟨d', by simpa only [writeCentral, ne_eq, not_true_eq_false, ↓reduceIte] using htail,
      hrest⟩
  have hcopy : memcpy d.bytes (block * size) (num * size) (behind buffer leading) =
      memcpy bytes start (leading + num * size) buffer := by
    rw [hbytes, h.aligned, memcpy_memcpy]
  obtain ⟨d', htail, hbytes', hwithin⟩ := writeTail_faithful
    (d := ⟨_, d.accessed ++ blockRange block num⟩) h lead buffer tmp hcopy
  refine ⟨d', ?_, hbytes', (h.within_central _).trans hwithin⟩
  simp only [writeCentral, faithful, h.num_word, ne_eq, hnum, not_false_eq_true,
    not_true_eq_false, ↓reduceIte]
  exact htail

end Parts

theorem within_head (hoffset : start % size ≠ 0) (bytes : Data) :
    Within size (start / size) (start + length) d
      ⟨bytes, d.accessed ++ blockRange (start / size) 1⟩ := by
  apply within_blocks le_rfl
  intro j hj
  have hdiv := div_add_mod' start size
  rw [lt_one_iff.mp hj, add_zero]
  omega

theorem start_sub (start size : ℕ) :
    (start : ℤ) - (start / size : ℕ) * size = (start % size : ℕ) := by
  have hcast : ((start / size * size + start % size : ℕ) : ℤ) = start := by
    rw [div_add_mod']
  omega

theorem head_short {m : ℕ} (hshort : ¬ m < length) :
    (if m > length then length else m) = length := by
  split_ifs
  · rfl
  · omega

theorem head_copy {k : ℕ} (hk : start % size + k ≤ size) (buffer tmp bytes : Data) :
    memcpy buffer 0 k
        (behind (memcpy tmp 0 (1 * size) (behind bytes (start / size * size))) (start % size)) =
      memcpy buffer 0 k (behind bytes start) := by
  apply memcpy_congr
  intro i hi
  have hdiv := div_add_mod' start size
  rw [behind, memcpy_start (by omega), behind, behind, ← add_assoc, hdiv]

theorem head_patch {k : ℕ} (hk : start % size + k ≤ size) (buffer tmp bytes : Data) :
    memcpy bytes (start / size * size) (1 * size)
        (memcpy (memcpy tmp 0 (1 * size) (behind bytes (start / size * size))) (start % size) k
          buffer) = memcpy bytes start k buffer := by
  rw [memcpy_patch (by omega), div_add_mod']

variable (hpos : 0 < size) (hsmall : size < 2 ^ 31)
include hpos hsmall

theorem start_offset (start : ℕ) :
    toInt (start - (start / size : ℕ) * size) = (start % size : ℕ) := by
  have hmod := mod_lt start hpos
  rw [start_sub, toInt_of_lt (by omega)]

theorem leading_word (start : ℕ) (hw : 31 ≤ w) :
    toWord w ((size : ℤ) - (start % size : ℕ)) = size - start % size := by
  have hmod := mod_lt start hpos
  have hword : 2 ^ 31 ≤ 2 ^ w := Nat.pow_le_pow_right (by decide) hw
  have heq : (size : ℤ) - (start % size : ℕ) = (size - start % size : ℕ) := by omega
  rw [heq, toWord_of_lt (by omega)]

theorem start_word (start : ℕ) (hw : 31 ≤ w) :
    toWord w (start - (start / size : ℕ) * size) = start % size := by
  have hmod := mod_lt start hpos
  have hword : 2 ^ 31 ≤ 2 ^ w := Nat.pow_le_pow_right (by decide) hw
  rw [start_sub, toWord_of_lt (by omega)]

variable (hlimit : start + length < 2 ^ 64) (hword : length < 2 ^ w)
include hlimit hword

theorem request_behind_head (hlong : size - start % size < length) :
    Request w size start length (size - start % size) (start / size + 1)
      ((length - (size - start % size)) / size) ((length - (size - start % size)) % size) := by
  have hdiv := div_add_mod' start size
  have hmod := mod_lt start hpos
  have hrest := div_add_mod' (length - (size - start % size)) size
  refine ⟨hsmall, ?_, by omega, mod_lt _ hpos, hlimit, hword⟩
  rw [succ_mul]
  omega

theorem request_aligned (hoffset : start % size = 0) :
    Request w size start length 0 (start / size) (length / size) (length % size) := by
  have hdiv := div_add_mod' start size
  have hrest := div_add_mod' length size
  exact ⟨hsmall, by omega, by omega, mod_lt _ hpos, hlimit, hword⟩

theorem drvUtilReadBlock_faithful (hw : 31 ≤ w) (buffer tmp : Data) :
    ∃ d', drvUtilReadBlock w (faithful size) size d start length buffer tmp =
        (length, memcpy buffer 0 length (behind d.bytes start), d') ∧
      d'.bytes = d.bytes ∧ Within size (start / size) (start + length) d d' := by
  have hoff := start_offset hpos hsmall start
  by_cases hoffset : start % size = 0
  · have hrequest := request_aligned hpos hsmall hlimit hword hoffset
    obtain ⟨d', heq, hrest⟩ := readCentral_faithful (d := d) hrequest buffer tmp
    refine ⟨d', ?_, hrest⟩
    rw [memcpy_zero] at heq
    simp only [drvUtilReadBlock, hoff, hoffset, hrequest.toInt_tail]
    simpa using heq
  have hread : (faithful size).readBlocks d (start / size) 1 tmp =
      (1, memcpy tmp 0 (1 * size) (behind d.bytes (start / size * size)),
        ⟨d.bytes, d.accessed ++ blockRange (start / size) 1⟩) := rfl
  have hmod := mod_lt start hpos
  have hlead := leading_word hpos hsmall start hw
  have hne : ((start % size : ℕ) : ℤ) ≠ 0 := by exact_mod_cast hoffset
  by_cases hlong : size - start % size < length
  · have hrequest := request_behind_head hpos hsmall hlimit hword hlong
    obtain ⟨d', heq, hbytes, hwithin⟩ := readCentral_faithful
      (d := ⟨d.bytes, d.accessed ++ blockRange (start / size) 1⟩) hrequest buffer
      (memcpy tmp 0 (1 * size) (behind d.bytes (start / size * size)))
    refine ⟨d', ?_, hbytes, (within_head hoffset d.bytes).trans hwithin⟩
    have hkeep : ¬ size - start % size > length := by omega
    have hwhole : start % size + (size - start % size) ≤ size := by omega
    simp only [drvUtilReadBlock, hoff, hlead, hne, hread, hkeep, hlong.ne, hrequest.block_mod,
      Int.toNat_natCast, hrequest.tail_int, head_copy hwhole, ne_eq, not_true_eq_false,
      not_false_eq_true, ↓reduceIte]
    exact heq
  · refine ⟨⟨d.bytes, d.accessed ++ blockRange (start / size) 1⟩, ?_, rfl,
      within_head hoffset d.bytes⟩
    simp only [drvUtilReadBlock, hoff, hlead, hne, hread, head_short hlong, Int.toNat_natCast,
      head_copy (by omega : start % size + length ≤ size), ne_eq, not_true_eq_false,
      not_false_eq_true, ↓reduceIte]

theorem drvUtilWriteBlock_faithful (hw : 31 ≤ w) (buffer tmp : Data) :
    ∃ d', drvUtilWriteBlock w (faithful size) size d start length buffer tmp = (length, d') ∧
      d'.bytes = memcpy d.bytes start length buffer ∧
      Within size (start / size) (start + length) d d' := by
  have hoff := start_word hpos hsmall start hw
  have hlead := leading_word hpos hsmall start hw
  by_cases hoffset : start % size = 0
  · have hrequest := request_aligned hpos hsmall hlimit hword hoffset
    obtain ⟨d', heq, hrest⟩ := writeCentral_faithful (d := d) hrequest
      (toWord w ((size : ℤ) - (start % size : ℕ))) buffer tmp memcpy_zero.symm
    refine ⟨d', ?_, hrest⟩
    simp only [drvUtilWriteBlock, hoff, hrequest.toInt_tail, hoffset] at heq ⊢
    simpa using heq
  have hmod := mod_lt start hpos
  have hread : (faithful size).readBlocks d (start / size) 1 tmp =
      (1, memcpy tmp 0 (1 * size) (behind d.bytes (start / size * size)),
        ⟨d.bytes, d.accessed ++ blockRange (start / size) 1⟩) := rfl
  have hwrite : ∀ src, (faithful size).writeBlocks
      ⟨d.bytes, d.accessed ++ blockRange (start / size) 1⟩ (start / size) 1 src =
      (1, ⟨memcpy d.bytes (start / size * size) (1 * size) src,
        d.accessed ++ blockRange (start / size) 1 ++ blockRange (start / size) 1⟩) :=
    fun _ => rfl
  have htwice : ∀ bytes, Within size (start / size) (start + length) d
      ⟨bytes, d.accessed ++ blockRange (start / size) 1 ++ blockRange (start / size) 1⟩ :=
    fun bytes => (within_head hoffset d.bytes).trans (within_head hoffset bytes)
  by_cases hlong : size - start % size < length
  · have hrequest := request_behind_head hpos hsmall hlimit hword hlong
    have hkeep : ¬ size - start % size > length := by omega
    have hpatch := head_patch (by omega : start % size + (size - start % size) ≤ size) buffer
      tmp d.bytes
    obtain ⟨d', heq, hbytes, hwithin⟩ := writeCentral_faithful
      (d := ⟨_, d.accessed ++ blockRange (start / size) 1 ++ blockRange (start / size) 1⟩)
      hrequest (size - start % size) buffer
      (memcpy (memcpy tmp 0 (1 * size) (behind d.bytes (start / size * size))) (start % size)
        (size - start % size) buffer) hpatch
    refine ⟨d', ?_, hbytes, (htwice _).trans hwithin⟩
    simp only [drvUtilWriteBlock, hoff, hlead, hoffset, hread, hwrite, hkeep, hlong.ne,
      hrequest.block_mod, hrequest.tail_int, ne_eq, not_true_eq_false, not_false_eq_true,
      ↓reduceIte]
    exact heq
  · refine ⟨_, ?_, rfl, htwice (memcpy d.bytes start length buffer)⟩
    simp only [drvUtilWriteBlock, hoff, hlead, hoffset, hread, hwrite, head_short hlong,
      head_patch (by omega : start % size + length ≤ size), ne_eq, not_true_eq_false,
      not_false_eq_true, ↓reduceIte]

end Requests

structure Transfer (w : ℕ) where
  write : Bool
  (start length : ℕ)
  (buffer tmp : Data)
  limit : start + length < 2 ^ 64
  word : length < 2 ^ w

variable {w}

def blocks (size : ℕ) (d : Disk) (t : Transfer w) : (ℕ × Data) × Disk :=
  if t.write then
    let (ret, d) := drvUtilWriteBlock w (faithful size) size d t.start t.length t.buffer t.tmp
    ((ret, t.buffer), d)
  else
    let (ret, buffer, d) :=
      drvUtilReadBlock w (faithful size) size d t.start t.length t.buffer t.tmp
    ((ret, buffer), d)

def plain (m : Data) (t : Transfer w) : (ℕ × Data) × Data :=
  if t.write then ((t.length, t.buffer), memcpy m t.start t.length t.buffer)
  else ((t.length, memcpy t.buffer 0 t.length (behind m t.start)), m)

def results {σ : Type} (step : σ → Transfer w → (ℕ × Data) × σ) :
    σ → List (Transfer w) → List (ℕ × Data)
  | _, [] => []
  | s, t :: ts => (step s t).1 :: results step (step s t).2 ts

theorem blocks_spec (hpos : 0 < size) (hsmall : size < 2 ^ 31) (hw : 31 ≤ w) (t : Transfer w) :
    (blocks size d t).map id Disk.bytes = plain d.bytes t := by
  unfold blocks plain
  split_ifs
  · obtain ⟨_, heq, hbytes, -⟩ :=
      drvUtilWriteBlock_faithful (d := d) hpos hsmall t.limit t.word hw t.buffer t.tmp
    rw [heq, ← hbytes]
    rfl
  · obtain ⟨_, heq, hbytes, -⟩ :=
      drvUtilReadBlock_faithful (d := d) hpos hsmall t.limit t.word hw t.buffer t.tmp
    rw [heq, ← hbytes]
    rfl

/-- No run of transfers tells the blocks from an array of bytes. -/
theorem blocks_refine_bytes (hpos : 0 < size) (hsmall : size < 2 ^ 31) (hw : 31 ≤ w)
    (ts : List (Transfer w)) (d : Disk) :
    results (blocks size) d ts = results plain d.bytes ts := by
  induction ts generalizing d with
  | nil => rfl
  | cons t ts ih =>
    rw [results, results, ih, ← blocks_spec hpos hsmall hw]
    rfl

def patch (write : Bool) : Transfer 32 :=
  ⟨write, 3, 7, fun _ => 9, fun _ => 0, by decide, by decide⟩

theorem patch_refined : results (blocks 4) ⟨fun _ => 1, []⟩ [patch true, patch false] =
    results plain (fun _ => 1) [patch true, patch false] :=
  blocks_refine_bytes (by decide) (by decide) (by decide) _ ⟨_, []⟩

end DrvUtilDisk
