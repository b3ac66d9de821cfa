import Acess2.DrvUtilDisk

/-! Sub-volumes of the logical volume manager (`LVM/main.c`).
A request is cut to the size of the sub-volume before the place of the sub-volume is added. -/
namespace LvmSubVolumes

open BufferCopies DrvUtilDisk MachineWords Nat

/-- `tLVM_SubVolume`, with the size of the blocks of its volume -/
structure SubVolume where
  firstBlock : ℕ
  blockCount : ℕ
  blockSize : ℕ
  pos : 0 < blockSize
  small : blockSize < 2 ^ 31
  limit : (firstBlock + blockCount) * blockSize < 2 ^ 63

variable {D : Type} (w : ℕ) (cb : Callbacks D) (sv : SubVolume)

def SubVolume.byteSize : ℕ := sv.blockCount * sv.blockSize % 2 ^ 64

/-- The two cuts of `Length` in `LVM_SubVol_Read` and `LVM_SubVol_Write` -/
def SubVolume.cut (offset length : ℕ) : ℕ :=
  let length := if length > sv.byteSize then toWord w sv.byteSize else length
  if (offset + length) % 2 ^ 64 > sv.byteSize then toWord w ((sv.byteSize : ℤ) - offset)
  else length

def SubVolume.start (offset : ℕ) : ℕ :=
  (offset + sv.firstBlock * sv.blockSize % 2 ^ 64) % 2 ^ 64

def lvmSubVolRead (d : D) (offset length : ℕ) (buffer tmp : Data) : ℕ × Data × D :=
  if offset > sv.byteSize then (0, buffer, d)
  else
    drvUtilReadBlock w cb sv.blockSize d (sv.start offset) (sv.cut w offset length) buffer tmp

def lvmSubVolWrite (d : D) (offset length : ℕ) (buffer tmp : Data) : ℕ × D :=
  if offset > sv.byteSize then (0, d)
  else
    drvUtilWriteBlock w cb sv.blockSize d (sv.start offset) (sv.cut w offset length) buffer tmp

variable {w} {offset length : ℕ} {sv}

section

variable (sv)

def SubVolume.total : ℕ := sv.blockCount * sv.blockSize

def SubVolume.transferred (offset length : ℕ) : ℕ :=
  min length (sv.total - offset)

theorem SubVolume.end_lt : sv.firstBlock * sv.blockSize + sv.total < 2 ^ 63 := by
  have hlimit := sv.limit
  rwa [add_mul] at hlimit

theorem SubVolume.byteSize_eq : sv.byteSize = sv.total := by
  have hend := sv.end_lt
  exact mod_eq_of_lt (show sv.total < 2 ^ 64 by omega)

end

theorem SubVolume.start_eq (hoffset : offset ≤ sv.total) :
    sv.start offset = sv.firstBlock * sv.blockSize + offset := by
  have hend := sv.end_lt
  rw [SubVolume.start, mod_eq_of_lt (a := sv.firstBlock * sv.blockSize) (by omega), add_comm]
  exact mod_eq_of_lt (by omega)

theorem SubVolume.cut_eq (hlength : length < 2 ^ w) (hoffset : offset ≤ sv.total) :
    sv.cut w offset length = sv.transferred offset length := by
  have hend := sv.end_lt
  have hfirst : (if length > sv.total then toWord w sv.total else length) =
      min length sv.total := by
    split_ifs with hlong
    · rw [toWord_of_lt (by omega), min_eq_right (by omega)]
    · rw [min_eq_left (by omega)]
  rw [SubVolume.cut, sv.byteSize_eq, hfirst, SubVolume.transferred,
    mod_eq_of_lt (by omega : offset + min length sv.total < 2 ^ 64)]
  split_ifs with hpast
  · have hsub : (sv.total : ℤ) - offset = (sv.total - offset : ℕ) := by omega
    rw [hsub, toWord_of_lt (by omega), min_eq_right (by omega)]
  · omega

theorem SubVolume.block_inside {b : ℕ} (hoffset : offset ≤ sv.total)
    (hlo : (sv.firstBlock * sv.blockSize + offset) / sv.blockSize ≤ b)
    (hhi : b * sv.blockSize < sv.firstBlock * sv.blockSize + offset +
      sv.transferred offset length) :
    sv.firstBlock ≤ b ∧ b < sv.firstBlock + sv.blockCount := by
  constructor
  · calc sv.firstBlock = sv.firstBlock * sv.blockSize / sv.blockSize :=
          (Nat.mul_div_cancel _ sv.pos).symm
      _ ≤ (sv.firstBlock * sv.blockSize + offset) / sv.blockSize :=
          Nat.div_le_div_right (Nat.le_add_right ..)
      _ ≤ b := hlo
  · have htotal : sv.transferred offset length ≤ sv.total - offset := min_le_right ..
    have hlt : b * sv.blockSize < (sv.firstBlock + sv.blockCount) * sv.blockSize := by
      rw [Nat.add_mul]
      change _ < _ + sv.total
      omega
    exact Nat.lt_of_mul_lt_mul_right hlt

def Confined (sv : SubVolume) (d d' : Disk) : Prop :=
  ∀ b ∈ d'.accessed, b ∈ d.accessed ∨ (sv.firstBlock ≤ b ∧ b < sv.firstBlock + sv.blockCount)

theorem confined_of_within {d d' : Disk} (hoffset : offset ≤ sv.total)
    (h : Within sv.blockSize ((sv.firstBlock * sv.blockSize + offset) / sv.blockSize)
      (sv.firstBlock * sv.blockSize + offset + sv.transferred offset length) d d') :
    Confined sv d d' := by
  intro b hb
  rcases h b hb with hold | ⟨hlo, hhi⟩
  · exact .inl hold
  · exact .inr (SubVolume.block_inside hoffset hlo hhi)

/-- Both calls transfer the bytes of the request inside the sub-volume, and access no other block.
-/
theorem subVolume_confined (hw : 32 ≤ w) (sv : SubVolume) (hlength : length < 2 ^ w)
    (offset : ℕ) (d : Disk) (buffer tmp : Data) :
    (∃ d', lvmSubVolRead w (faithful sv.blockSize) sv d offset length buffer tmp =
        (sv.transferred offset length, memcpy buffer 0 (sv.transferred offset length)
          (behind d.bytes (sv.firstBlock * sv.blockSize + offset)), d') ∧
      d'.bytes = d.bytes ∧ Confined sv d d') ∧
    ∃ d', lvmSubVolWrite w (faithful sv.blockSize) sv d offset length buffer tmp =
        (sv.transferred offset length, d') ∧
      d'.bytes = memcpy d.bytes (sv.firstBlock * sv.blockSize + offset)
        (sv.transferred offset length) buffer ∧
      Confined sv d d' := by
  by_cases hpast : offset > sv.byteSize
  · have hnone : sv.transferred offset length = 0 := by
      rw [sv.byteSize_eq] at hpast
      rw [SubVolume.transferred, Nat.sub_eq_zero_of_le hpast.le, Nat.min_zero]
    have hsame : Confined sv d d := fun b hb => .inl hb
    rw [hnone]
    refine ⟨⟨d, ?_, rfl, hsame⟩, d, ?_, memcpy_zero.symm, hsame⟩
    · rw [lvmSubVolRead, if_pos hpast, memcpy_zero]
    · rw [lvmSubVolWrite, if_pos hpast]
  have hoffset : offset ≤ sv.total := by
    rw [← sv.byteSize_eq]
    omega
  have hend := sv.end_lt
  have hinside : sv.transferred offset length ≤ sv.total - offset := min_le_right ..
  have hword : sv.transferred offset length < 2 ^ w := lt_of_le_of_lt (min_le_left ..) hlength
  have hlimit : sv.firstBlock * sv.blockSize + offset + sv.transferred offset length < 2 ^ 64 := by
    omega
  have hcut := SubVolume.cut_eq hlength hoffset
  have hstart := SubVolume.start_eq hoffset
  obtain ⟨d₁, hread, hbytes₁, hwithin₁⟩ := drvUtilReadBlock_faithful (d := d) sv.pos sv.small
    hlimit hword (by omega) buffer tmp
  obtain ⟨d₂, hwrite, hbytes₂, hwithin₂⟩ := drvUtilWriteBlock_faithful (d := d) sv.pos sv.small
    hlimit hword (by omega) buffer tmp
  refine ⟨⟨d₁, ?_, hbytes₁, confined_of_within hoffset hwithin₁⟩,
    d₂, ?_, hbytes₂, confined_of_within hoffset hwithin₂⟩
  · rw [lvmSubVolRead, if_neg hpast, hcut, hstart, hread]
  · rw [lvmSubVolWrite, if_neg hpast, hcut, hstart, hwrite]

def threeBlocks : SubVolume := ⟨2, 3, 4, Nat.succ_pos 3, by decide, by decide⟩

/-- A request that starts inside a block and goes over the end of the sub-volume -/
theorem threeBlocks_confined :
    (∃ d', lvmSubVolRead 32 (faithful 4) threeBlocks ⟨fun i => i.toUInt8, []⟩ 5 20 (fun _ => 1)
        (fun _ => 0) = (7, memcpy (fun _ => 1) 0 7 (behind (fun i => i.toUInt8) 13), d') ∧
      d'.bytes = (fun i => i.toUInt8) ∧ Confined threeBlocks ⟨fun i => i.toUInt8, []⟩ d') ∧
    ∃ d', lvmSubVolWrite 32 (faithful 4) threeBlocks ⟨fun i => i.toUInt8, []⟩ 5 20 (fun _ => 1)
        (fun _ => 0) = (7, d') ∧
      d'.bytes = memcpy (fun i => i.toUInt8) 13 7 (fun _ => 1) ∧
      Confined threeBlocks ⟨fun i => i.toUInt8, []⟩ d' :=
  subVolume_confined (w := 32) le_rfl threeBlocks (by decide) 5 ⟨fun i => i.toUInt8, []⟩
    (fun _ => 1) (fun _ => 0)

end LvmSubVolumes
