import Acess2.IoCacheCoherence

/-! Volumes of the logical volume manager (`LVM/volumes.c`): blocks of a device behind a cache.
A read goes through the cache in runs of blocks that are there and blocks that are not. A write
goes to the cache only, and what becomes of a block that is not there is not looked at. -/
namespace LvmVolumes

open BufferCopies Function GuardedRuns IoCache IoCacheCoherence Nat

abbrev Device := ℕ → Data

section

variable (size : ℕ) (device : Device)

def readBlocks (first count : ℕ) (dest : Data) (p : ℕ) : Data :=
  memcpy dest p (count * size) fun i => device ((first + i / size) % 2 ^ 64) (i % size)

def writeBlock (block : ℕ) (src : Data) : Device :=
  update device block (memcpy (device block) 0 size src)

def writeBlocks (first count : ℕ) (src : Data) : Device :=
  (List.range count).foldl
    (fun device i => writeBlock size device ((first + i) % 2 ^ 64) (behind src (i * size))) device

def lvmIntCacheWriteback (sector : ℕ) (buffer : Data) : Device :=
  writeBlock size device sector buffer

end

structure Io where
  cache : Cache
  device : Device
  calls : ℕ

/-- `now` is what the clock says, and `fresh` what stands in a new frame, each time. -/
structure Machine where
  now : ℕ → ℤ
  fresh : ℕ → Data

variable (m : Machine) (size : ℕ)

/-- The two inner loops of `LVM_int_ReadVolume`: as long as `IOCache_Read` returns `want`. `left`
is `BlockCount - done`. -/
def readWhile (want : ℤ) (blockNum : ℕ) : ℕ → Io → ℕ → Data → Option (ℕ × Data × Io)
  | 0, v, done, dest => some (done, dest, v)
  | left + 1, v, done, dest =>
    match iocacheRead v.cache (m.now v.calls) ((blockNum + done) % 2 ^ 64)
      (behind dest (done * size)) with
    | none => none
    | some (rv, buffer, cache) =>
      let dest := splice dest (done * size) buffer
      let v := { v with cache, calls := v.calls + 1 }
      if rv = want then readWhile want blockNum left v (done + 1) dest else some (done, dest, v)

def addBlocks (blockNum : ℕ) : ℕ → Io → ℕ → Data → Option Io
  | 0, v, _, _ => some v
  | count + 1, v, first, dest =>
    match iocacheAdd (lvmIntCacheWriteback size) v.cache v.device (m.now v.calls)
      (m.fresh v.calls) ((blockNum + first) % 2 ^ 64) (behind dest (first * size)) with
    | none => none
    | some (_, cache, device) =>
      addBlocks blockNum count ⟨cache, device, v.calls + 1⟩ (first + 1) dest

/-- One round of the outer loop of `LVM_int_ReadVolume` -/
def readRound (blockNum blockCount : ℕ) (v : Io) (done : ℕ) (dest : Data) :
    Option (ℕ × Data × Io) :=
  match readWhile m size 1 blockNum (blockCount - done) v done dest with
  | none => none
  | some (first, dest, v) =>
    match readWhile m size 0 blockNum (blockCount - first) v first dest with
    | none => none
    | some (done, dest, v) =>
      let count := done - first
      if count = 0 then some (done, dest, v)
      else
        let dest :=
          readBlocks size v.device ((blockNum + first) % 2 ^ 64) count dest (first * size)
        (addBlocks m size blockNum count v first dest).map fun v => (done, dest, v)

/-- The outer loop; `none` if it goes on for more than `fuel` rounds -/
def readLoop (blockNum blockCount : ℕ) : ℕ → Io → ℕ → Data → Option (ℕ × Data × Io)
  | fuel, v, done, dest =>
    if done < blockCount then
      match fuel with
      | 0 => none
      | fuel + 1 =>
        match readRound m size blockNum blockCount v done dest with
        | none => none
        | some (done, dest, v) => readLoop blockNum blockCount fuel v done dest
    else some (done, dest, v)

/-- The loop of `LVM_int_WriteVolume` -/
def writeLoop : ℕ → Io → ℕ → Data → ℕ → Option (ℕ × Io)
  | 0, v, _, _, done => some (done, v)
  | blockCount + 1, v, blockNum, src, done =>
    match iocacheWrite (lvmIntCacheWriteback size) v.cache v.device
      (m.now v.calls) blockNum src with
    | none => none
    | some (_, cache, device) =>
      writeLoop blockCount ⟨cache, device, v.calls + 1⟩ ((blockNum + 1) % 2 ^ 64)
        (behind src size) (done + 1)

/-- `tLVM_Vol` -/
structure Volume where
  blockSize : ℕ
  cacheHandle : Option Cache
  device : Device
  calls : ℕ

def lvmAddVolume (blockSize : ℕ) (device : Device) : Volume :=
  ⟨blockSize, iocacheCreate blockSize 1024, device, 0⟩

/-- `LVM_int_ReadVolume`: the number of blocks, and the buffer -/
def lvmIntReadVolume (vol : Volume) (blockNum blockCount : ℕ) (dest : Data) :
    Option (ℕ × Data × Volume) :=
  match vol.cacheHandle with
  | some cache =>
    (readLoop m vol.blockSize blockNum blockCount blockCount ⟨cache, vol.device, vol.calls⟩ 0
      dest).map fun (done, dest, v) =>
        (done, dest, ⟨vol.blockSize, some v.cache, v.device, v.calls⟩)
  | none => some (blockCount, readBlocks vol.blockSize vol.device blockNum blockCount dest 0, vol)

def lvmIntWriteVolume (vol : Volume) (blockNum blockCount : ℕ) (src : Data) : Option (ℕ × Volume) :=
  match vol.cacheHandle with
  | some cache =>
    (writeLoop m vol.blockSize blockCount ⟨cache, vol.device, vol.calls⟩ blockNum src 0).map
      fun (done, v) => (done, ⟨vol.blockSize, some v.cache, v.device, v.calls⟩)
  | none =>
    some (blockCount,
      { vol with device := writeBlocks vol.blockSize vol.device blockNum blockCount src })

variable {m} {size} {n b left done first count : ℕ} {v : Io} {device : Device} {dest dest₀ : Data}
  {c : Cache}

def OnDevice (size : ℕ) (device : Device) (block : ℕ) (d : Data) : Prop :=
  ∀ i < size, d i = device block i

def content (size : ℕ) (device : Device) (b : ℕ) : Data := fun i => device (b + i / size) (i % size)

theorem content_block {i : ℕ} (hi : i < size) (j : ℕ) :
    content size device b (j * size + i) = device (b + j) i := by
  have hsize : 0 < size := zero_lt_of_lt hi
  rw [content, mul_comm j size, mul_add_div hsize, mul_add_mod, div_eq_of_lt hi,
    mod_eq_of_lt hi, add_zero]

structure InRange (size b n : ℕ) : Prop where
  count : n < 2 ^ 31
  fits : ∀ j < n, Fits size (b + j)

theorem InRange.block_mod (h : InRange size b n) (hsize : 512 ≤ size) {j : ℕ} (hj : j < n) :
    (b + j) % 2 ^ 64 = b + j := by
  have hlt : (b + j) * size < 2 ^ 64 := (h.fits j hj).1
  have hle : b + j ≤ (b + j) * size := Nat.le_mul_of_pos_right _ (by omega)
  exact mod_eq_of_lt (by omega)

/-- A call of `LVM_int_ReadVolume` has read the first `done` blocks. -/
structure Reading (size : ℕ) (device : Device) (b n : ℕ) (dest₀ : Data) (v : Io) (done : ℕ)
    (dest : Data) : Prop where
  coherent : Coherent size (OnDevice size device) v.cache
  same : v.device = device
  filled : ∀ i < done * size, dest i = content size device b i
  beyond : ∀ i, n * size ≤ i → dest i = dest₀ i

section

variable (hrange : InRange size b n)
include hrange

theorem read_block (h : Reading size device b n dest₀ v first dest) (hdone : done < n) :
    (¬ Present v.cache (b + done) ∧ iocacheRead v.cache (m.now v.calls) ((b + done) % 2 ^ 64)
        (behind dest (done * size)) = some (0, behind dest (done * size), v.cache)) ∨
    (Present v.cache (b + done) ∧ ∃ d c', OnDevice size device (b + done) d ∧
      iocacheRead v.cache (m.now v.calls) ((b + done) % 2 ^ 64) (behind dest (done * size)) =
        some (1, memcpy (behind dest (done * size)) 0 size d, c') ∧
      Coherent size (OnDevice size device) c') := by
  have hsize : 512 ≤ size := h.coherent.size ▸ h.coherent.large
  rw [hrange.block_mod hsize hdone]
  rcases h.coherent.read (hrange.fits done hdone) (m.now v.calls)
    (behind dest (done * size)) with hmiss | ⟨hpresent, d, c', hd, heq, hcoherent, -⟩
  · exact .inl hmiss
  · exact .inr ⟨hpresent, d, c', hd, heq, hcoherent⟩

omit hrange in
theorem Reading.copy {c' : Cache} (h : Reading size device b n dest₀ v first dest)
    (hfirst : first ≤ done) (hdone : done < n) (hc : Coherent size (OnDevice size device) c')
    (calls : ℕ) (d : Data) :
    Reading size device b n dest₀ ⟨c', v.device, calls⟩ first
      (memcpy dest (done * size) size d) := by
  have hlow : first * size ≤ done * size := mul_le_mul_right _ hfirst
  have hhigh : (done + 1) * size ≤ n * size := mul_le_mul_right _ hdone
  rw [succ_mul] at hhigh
  refine ⟨hc, h.same, fun i hi => ?_, fun i hi => ?_⟩
  · rw [memcpy_outside (.inl (by omega))]
    exact h.filled i hi
  · rw [memcpy_outside (.inr (by omega))]
    exact h.beyond i hi

omit hrange in
theorem Reading.copied {d : Data} (h : Reading size device b n dest₀ v done
    (memcpy dest (done * size) size d)) (hd : OnDevice size device (b + done) d) :
    Reading size device b n dest₀ v (done + 1) (memcpy dest (done * size) size d) := by
  refine ⟨h.coherent, h.same, fun i hi => ?_, h.beyond⟩
  by_cases hlow : i < done * size
  · exact h.filled i hlow
  obtain ⟨j, rfl⟩ := Nat.exists_eq_add_of_le (not_lt.mp hlow)
  have hj : j < size := by
    rw [succ_mul] at hi
    omega
  rw [memcpy_inside hj, content_block hj]
  exact hd j hj

theorem readWhile_cached (h : Reading size device b n dest₀ v done dest) (hleft : done + left = n) :
    ∃ done' dest' v', readWhile m size 1 b left v done dest = some (done', dest', v') ∧
      Reading size device b n dest₀ v' done' dest' ∧ done ≤ done' ∧ done' ≤ n ∧
      (done' < n → ¬ Present v'.cache (b + done')) := by
  induction left generalizing v done dest with
  | zero => exact ⟨done, dest, v, rfl, h, le_rfl, by omega, fun hlt => absurd hlt (by omega)⟩
  | succ left ih =>
    have hdone : done < n := by omega
    rcases read_block (m := m) hrange h hdone with ⟨habsent, heq⟩ | ⟨-, d, c', hd, heq, hc⟩
    · refine ⟨done, dest, { v with calls := v.calls + 1 }, ?_, { h with }, le_rfl, hdone.le,
        fun _ => habsent⟩
      simp [readWhile, heq, splice_behind, -reducePow]
    · have hcopy := (h.copy le_rfl hdone hc (v.calls + 1) d).copied hd
      obtain ⟨done', dest', v', hrun, hreading, hle, hrest⟩ := ih hcopy (by omega)
      refine ⟨done', dest', v', ?_, hreading, by omega, hrest⟩
      simpa [readWhile, heq, splice_memcpy, -reducePow] using hrun

theorem readWhile_uncached (h : Reading size device b n dest₀ v first dest) (hfirst : first ≤ done)
    (hleft : done + left = n) :
    ∃ done' dest' v', readWhile m size 0 b left v done dest = some (done', dest', v') ∧
      Reading size device b n dest₀ v' first dest' ∧ done ≤ done' ∧ done' ≤ n ∧
      (done < n → ¬ Present v.cache (b + done) → done < done') := by
  induction left generalizing v done dest with
  | zero => exact ⟨done, dest, v, rfl, h, le_rfl, by omega, fun hlt => absurd hlt (by omega)⟩
  | succ left ih =>
    have hdone : done < n := by omega
    rcases read_block (m := m) hrange h hdone with ⟨-, heq⟩ | ⟨hpresent, d, c', -, heq, hc⟩
    · have hnext : Reading size device b n dest₀ { v with calls := v.calls + 1 } first dest :=
        { h with }
      obtain ⟨done', dest', v', hrun, hreading, hle, hbound, -⟩ :=
        ih hnext (by omega : first ≤ done + 1) (by omega)
      refine ⟨done', dest', v', ?_, hreading, by omega, hbound, fun _ _ => by omega⟩
      simpa [readWhile, heq, splice_behind, -reducePow] using hrun
    · refine ⟨done, _, _, ?_, h.copy hfirst hdone hc (v.calls + 1) d, le_rfl, hdone.le,
        fun _ habsent => absurd hpresent habsent⟩
      simp [readWhile, heq, splice_memcpy, -reducePow]

omit hrange in
theorem stores_onDevice {block : ℕ} {d : Data} (hd : OnDevice size device block d) :
    Stores (OnDevice size device) (OnDevice size device) block d :=
  ⟨fun _ _ _ h => h, hd⟩

theorem add_block {src : Data} (h : Reading size device b n dest₀ v done dest) (hfirst : first < n)
    (hsrc : OnDevice size device (b + first) src) :
    ∃ r c', iocacheAdd (lvmIntCacheWriteback size) v.cache v.device (m.now v.calls)
        (m.fresh v.calls) (b + first) src = some (r, c', v.device) ∧
      Coherent size (OnDevice size device) c' := by
  rcases h.coherent.add (hrange.fits first hfirst) (stores_onDevice hsrc) v.device (m.now v.calls)
    (m.fresh v.calls) with ⟨-, heq⟩ | ⟨-, c', heq, hc⟩
  · exact ⟨0, v.cache, heq, h.coherent⟩
  · exact ⟨1, c', heq, hc⟩

theorem addBlocks_reading (h : Reading size device b n dest₀ v done dest) (hdone : done ≤ n)
    (hcount : first + count ≤ done) :
    ∃ v', addBlocks m size b count v first dest = some v' ∧
      Reading size device b n dest₀ v' done dest := by
  induction count generalizing v first with
  | zero => exact ⟨v, rfl, h⟩
  | succ count ih =>
    have hsize : 512 ≤ size := h.coherent.size ▸ h.coherent.large
    have hfirst : first < n := by omega
    have hblock : OnDevice size device (b + first) (behind dest (first * size)) := by
      intro i hi
      have hlt : (first + 1) * size ≤ done * size := mul_le_mul_right _ (by omega)
      rw [succ_mul] at hlt
      rw [behind, h.filled _ (by omega)]
      exact content_block hi first
    have hmod := hrange.block_mod hsize hfirst
    obtain ⟨r, c', heq, hc⟩ := add_block (m := m) hrange h hfirst hblock
    have hnext : Reading size device b n dest₀ ⟨c', v.device, v.calls + 1⟩ done dest :=
      { h with coherent := hc }
    obtain ⟨v', hrun, hreading⟩ := ih hnext (by omega : first + 1 + count ≤ done)
    exact ⟨v', by simpa only [addBlocks, hmod, heq] using hrun, hreading⟩

theorem Reading.device_read (h : Reading size device b n dest₀ v first dest) (hfirst : first < n)
    (hdone : first + count ≤ n) :
    Reading size device b n dest₀ v (first + count)
      (readBlocks size v.device ((b + first) % 2 ^ 64) count dest (first * size)) := by
  have hsize : 512 ≤ size := h.coherent.size ▸ h.coherent.large
  have hend : (first + count) * size ≤ n * size := mul_le_mul_right _ hdone
  rw [hrange.block_mod hsize hfirst]
  refine ⟨h.coherent, h.same, fun i hi => ?_, fun i hi => ?_⟩
  · by_cases hlow : i < first * size
    · rw [readBlocks, memcpy_outside (.inl hlow)]
      exact h.filled i hlow
    · obtain ⟨j, rfl⟩ := Nat.exists_eq_add_of_le (not_lt.mp hlow)
      rw [add_mul] at hi
      have hj : j < count * size := by omega
      have hblock : j / size < count := (div_lt_iff_lt_mul (by omega)).mpr hj
      have hmod := hrange.block_mod hsize (by omega : first + j / size < n)
      rw [readBlocks, memcpy_inside hj, h.same, add_assoc, hmod, content,
        mul_comm first size, mul_add_div (by omega), mul_add_mod]
  · rw [add_mul] at hend
    rw [readBlocks, memcpy_outside (.inr (by omega))]
    exact h.beyond i hi

theorem readRound_reading (h : Reading size device b n dest₀ v done dest) (hdone : done < n) :
    ∃ done' dest' v', readRound m size b n v done dest = some (done', dest', v') ∧
      Reading size device b n dest₀ v' done' dest' ∧ done < done' ∧ done' ≤ n := by
  obtain ⟨first, dest₁, v₁, hcached, h₁, hle₁, hbound₁, habsent⟩ :=
    readWhile_cached (m := m) hrange h (by omega : done + (n - done) = n)
  obtain ⟨done', dest₂, v₂, huncached, h₂, hle₂, hbound₂, hprogress⟩ :=
    readWhile_uncached (m := m) hrange h₁ le_rfl (by omega : first + (n - first) = n)
  have hfirst : first < n → first < done' := fun hlt => hprogress hlt (habsent hlt)
  by_cases hcount : done' - first = 0
  · -- the first run went to the end
    obtain rfl : first = done' := by omega
    refine ⟨first, dest₂, v₂, ?_, h₂, by omega, hbound₂⟩
    simp [readRound, hcached, huncached]
  obtain ⟨count, rfl⟩ := Nat.exists_eq_add_of_le hle₂
  rw [Nat.add_sub_cancel_left] at hcount
  have h₃ := h₂.device_read hrange (by omega) hbound₂
  obtain ⟨v₃, hadd, h₃⟩ := addBlocks_reading (m := m) hrange h₃ hbound₂ le_rfl
  refine ⟨first + count, _, v₃, ?_, h₃, by omega, hbound₂⟩
  simp only [readRound, hcached, huncached, Nat.add_sub_cancel_left, hcount, hadd, ↓reduceIte,
    Option.map_some]

theorem readLoop_reading {fuel : ℕ} (h : Reading size device b n dest₀ v done dest)
    (hdone : done ≤ n) (hfuel : n - done ≤ fuel) :
    ∃ dest' v', readLoop m size b n fuel v done dest = some (n, dest', v') ∧
      Reading size device b n dest₀ v' n dest' := by
  induction fuel generalizing v done dest with
  | zero =>
    obtain rfl : done = n := by omega
    exact ⟨dest, v, by simp [readLoop], h⟩
  | succ fuel ih =>
    by_cases hlt : done < n
    · obtain ⟨done', dest', v', hround, h', hgo, hbound⟩ := readRound_reading (m := m) hrange h hlt
      obtain ⟨dest'', v'', hloop, h''⟩ := ih h' hbound (by omega)
      exact ⟨dest'', v'', by rw [readLoop, if_pos hlt, hround]; exact hloop, h''⟩
    · obtain rfl : done = n := by omega
      exact ⟨dest, v, by rw [readLoop, if_neg hlt], h⟩

end

variable {src : Data}

/-- What a block holds once the blocks from `b` on are written that are in the cache -/
def written (size : ℕ) (c : Cache) (b n : ℕ) (src : Data) (device : Device) : Device :=
  fun s i => if b ≤ s ∧ s < b + n ∧ Present c s then src ((s - b) * size + i) else device s i

theorem stores_written {block : ℕ} (src : Data) :
    Stores (OnDevice size device) (OnDevice size (writeBlock size device block src)) block src := by
  constructor
  case keep =>
    intro s d hne hd i hi
    rw [writeBlock, update_of_ne hne]
    exact hd i hi
  case new =>
    intro i hi
    rw [writeBlock, update_self, memcpy_start hi]

theorem written_succ {c' : Cache} {device' : Device} (hpresent : ∀ s, Present c' s ↔ Present c s)
    (hdevice : ∀ s, ∀ i < size, device' s i =
      if s = b ∧ Present c b then src i else device s i) {s i : ℕ} (hi : i < size) :
    written size c' (b + 1) n (behind src size) device' s i =
      written size c b (n + 1) src device s i := by
  by_cases hpast : b + 1 ≤ s ∧ s < b + 1 + n ∧ Present c s
  · have hrange : b ≤ s ∧ s < b + (n + 1) ∧ Present c s := ⟨by omega, by omega, hpast.2.2⟩
    obtain ⟨j, rfl⟩ := Nat.exists_eq_add_of_le hpast.1
    have hindex : size + ((b + 1 + j - (b + 1)) * size + i) = (b + 1 + j - b) * size + i := by
      have hj : b + 1 + j - (b + 1) = j := by omega
      have hj' : b + 1 + j - b = j + 1 := by omega
      rw [hj, hj', succ_mul]
      omega
    rw [written, if_pos (by rwa [hpresent]), written, if_pos hrange, behind, hindex]
  rw [written, if_neg (by rwa [hpresent]), hdevice s i hi, written]
  by_cases hfirst : s = b ∧ Present c b
  · obtain ⟨rfl, hp⟩ := hfirst
    rw [if_pos ⟨rfl, hp⟩, if_pos ⟨le_rfl, by omega, hp⟩, Nat.sub_self, Nat.zero_mul, zero_add]
  have hrange : ¬ (b ≤ s ∧ s < b + (n + 1) ∧ Present c s) := by
    rintro ⟨hlow, hhigh, hp⟩
    rcases eq_or_lt_of_le hlow with rfl | hlt
    · exact hfirst ⟨rfl, hp⟩
    · exact hpast ⟨hlt, by omega, hp⟩
  rw [if_neg hfirst, if_neg hrange]

theorem block_succ_mod (hsize : 512 ≤ size) (hfits : Fits size b) : (b + 1) % 2 ^ 64 = b + 1 := by
  have hlt : b * size < 2 ^ 64 := hfits.1
  have hle : b * 512 ≤ b * size := mul_le_mul_left b hsize
  exact mod_eq_of_lt (by omega)

theorem write_block (h : Coherent size (OnDevice size v.device) v.cache) (hfits : Fits size b)
    (m : Machine) (src : Data) :
    ∃ rv c' device', iocacheWrite (lvmIntCacheWriteback size) v.cache v.device (m.now v.calls) b
        src = some (rv, c', device') ∧
      Coherent size (OnDevice size device') c' ∧ (∀ s, Present c' s ↔ Present v.cache s) ∧
      ∀ s, ∀ i < size, device' s i = if s = b ∧ Present v.cache b then src i else v.device s i := by
  rcases h.write hfits (stores_written src) v.device (m.now v.calls) with
    ⟨habsent, heq⟩ | ⟨hp, c', heq, hc, hpresent⟩
  · refine ⟨0, v.cache, v.device, heq, h, fun _ => Iff.rfl, fun s i _ => ?_⟩
    rw [if_neg (fun hfirst => habsent hfirst.2)]
  refine ⟨1, c', _, heq, hc, hpresent, fun s i hi => ?_⟩
  by_cases hs : s = b
  · subst hs
    rw [if_pos ⟨rfl, hp⟩]
    exact ((stores_written src).new i hi).symm
  · rw [if_neg (fun hfirst => hs hfirst.1), lvmIntCacheWriteback, writeBlock, update_of_ne hs]

theorem writeLoop_written (h : Coherent size (OnDevice size v.device) v.cache)
    (hfits : ∀ j < n, Fits size (b + j)) (m : Machine) (src : Data) (done : ℕ) :
    ∃ v', writeLoop m size n v b src done = some (done + n, v') ∧
      Coherent size (OnDevice size v'.device) v'.cache ∧
      ∀ s, ∀ i < size, v'.device s i = written size v.cache b n src v.device s i := by
  induction n generalizing v b src done with
  | zero =>
    refine ⟨v, rfl, h, fun s i _ => ?_⟩
    have hempty : ¬ (b ≤ s ∧ s < b + 0 ∧ Present v.cache s) := by omega
    rw [written, if_neg hempty]
  | succ n ih =>
    have hfirst : Fits size b := hfits 0 (succ_pos n)
    have hmod := block_succ_mod (h.size ▸ h.large) hfirst
    have hrest : ∀ j < n, Fits size (b + 1 + j) := fun j hj => by
      rw [add_assoc, add_comm 1 j]
      exact hfits (j + 1) (by omega)
    obtain ⟨rv, c', device', heq, hc, hpresent, hdevice'⟩ := write_block h hfirst m src
    obtain ⟨v', hrun, hcoherent, hdevice⟩ := ih (v := ⟨c', device', v.calls + 1⟩) hc hrest
      (behind src size) (done + 1)
    refine ⟨v', ?_, hcoherent, fun s i hi => (hdevice s i hi).trans ?_⟩
    · rw [writeLoop, heq, hmod, add_comm n 1, ← add_assoc]
      exact hrun
    · exact written_succ hpresent hdevice' hi

structure System where
  vol : Volume
  expected : Device

inductive Op where
  | read (blockNum blockCount : ℕ) (dest : Data)
  | write (blockNum blockCount : ℕ) (src : Data)

def Op.InRange (size : ℕ) : Op → Prop
  | .read b n _ => LvmVolumes.InRange size b n
  | .write b n _ => LvmVolumes.InRange size b n

/-- What the blocks have been given once a call of `LVM_int_WriteVolume` is made -/
def given (size b n : ℕ) (src : Data) (expected : Device) : Device :=
  fun s i => if b ≤ s ∧ s < b + n then src ((s - b) * size + i) else expected s i

def step (m : Machine) (s : System) : Op → Option System
  | .read b n dest => (lvmIntReadVolume m s.vol b n dest).map fun (_, _, vol) => { s with vol }
  | .write b n src => (lvmIntWriteVolume m s.vol b n src).map fun (_, vol) =>
      ⟨vol, given s.vol.blockSize b n src s.expected⟩

def Cached (vol : Volume) (block : ℕ) : Prop := ∃ c ∈ vol.cacheHandle, Present c block

instance (vol : Volume) (block : ℕ) : Decidable (Cached vol block) :=
  inferInstanceAs (Decidable (∃ c ∈ vol.cacheHandle, _))

def guard (s : System) : Op → Prop
  | .read _ _ _ => True
  | .write b n src => ∀ j < n, Cached s.vol (b + j) ∨
      ∀ i < s.vol.blockSize, src (j * s.vol.blockSize + i) = s.expected (b + j) i

instance (s : System) : DecidablePred (guard s) := fun c => by
  cases c <;> dsimp only [guard] <;> infer_instance

/-- Every call of `LVM_int_ReadVolume` returns its blocks as they were given last. -/
def ReadsBack (m : Machine) (s : System) : Prop :=
  ∀ b n dest, InRange s.vol.blockSize b n →
    ∃ dest' vol', lvmIntReadVolume m s.vol b n dest = some (n, dest', vol') ∧
      ∀ j < n, ∀ i < s.vol.blockSize, dest' (j * s.vol.blockSize + i) = s.expected (b + j) i

def Linked (vol : Volume) : Prop :=
  ∃ c, vol.cacheHandle = some c ∧ Coherent vol.blockSize (OnDevice vol.blockSize vol.device) c

def Current (s : System) : Prop :=
  ∀ block, Fits s.vol.blockSize block →
    ∀ i < s.vol.blockSize, s.vol.device block i = s.expected block i

variable {vol : Volume} {s t : System}

theorem Linked.read (h : Linked vol) (hrange : InRange vol.blockSize b n) (dest : Data) :
    ∃ dest' vol', lvmIntReadVolume m vol b n dest = some (n, dest', vol') ∧ Linked vol' ∧
      vol'.blockSize = vol.blockSize ∧ vol'.device = vol.device ∧
      ∀ i < n * vol.blockSize, dest' i = content vol.blockSize vol.device b i := by
  obtain ⟨c, hhandle, hc⟩ := h
  have hstart : Reading vol.blockSize vol.device b n dest ⟨c, vol.device, vol.calls⟩ 0 dest :=
    ⟨hc, rfl, fun i hi => by simp at hi, fun i _ => rfl⟩
  obtain ⟨dest', v', hloop, hreading⟩ :=
    readLoop_reading (m := m) hrange hstart (zero_le n) (sub_le n 0)
  refine ⟨dest', ⟨vol.blockSize, some v'.cache, v'.device, v'.calls⟩, ?_, ?_, rfl, hreading.same,
    hreading.filled⟩
  · simp [lvmIntReadVolume, hhandle, hloop]
  · refine ⟨v'.cache, rfl, ?_⟩
    rw [hreading.same]
    exact hreading.coherent

theorem Linked.write (h : Linked vol) (hrange : InRange vol.blockSize b n) (src : Data) :
    ∃ vol', lvmIntWriteVolume m vol b n src = some (n, vol') ∧ Linked vol' ∧
      vol'.blockSize = vol.blockSize ∧
      ∀ s, ∀ i < vol.blockSize, vol'.device s i =
        if b ≤ s ∧ s < b + n ∧ Cached vol s then src ((s - b) * vol.blockSize + i)
        else vol.device s i := by
  obtain ⟨c, hhandle, hc⟩ := h
  have hcached : ∀ s, Cached vol s ↔ Present c s := fun s => by simp [Cached, hhandle]
  obtain ⟨v', hloop, hcoherent, hdevice⟩ :=
    writeLoop_written (v := ⟨c, vol.device, vol.calls⟩) hc hrange.fits m src 0
  refine ⟨⟨vol.blockSize, some v'.cache, v'.device, v'.calls⟩, ?_, ⟨v'.cache, rfl, hcoherent⟩,
    rfl, fun s i hi => ?_⟩
  · simp [lvmIntWriteVolume, hhandle, hloop]
  · simp only [hcached]
    exact hdevice s i hi

theorem readsBack_iff (h : Linked s.vol) : ReadsBack m s ↔ Current s := by
  constructor
  · intro hreads block hfits i hi
    have hrange : InRange s.vol.blockSize block 1 :=
      ⟨by decide, fun j hj => by rwa [lt_one_iff.mp hj]⟩
    obtain ⟨dest, vol', heq, -, -, -, hfilled⟩ := h.read (m := m) hrange (fun _ => 0)
    obtain ⟨dest', vol'', heq', hexpected⟩ := hreads block 1 (fun _ => 0) hrange
    obtain ⟨rfl, -⟩ : dest = dest' ∧ vol' = vol'' := by simpa [heq] using heq'
    calc s.vol.device block i
        = content s.vol.blockSize s.vol.device block (0 * s.vol.blockSize + i) :=
          (content_block hi 0).symm
      _ = dest (0 * s.vol.blockSize + i) := (hfilled _ (by omega)).symm
      _ = s.expected block i := hexpected 0 (by omega) i hi
  · intro hcurrent b n dest hrange
    obtain ⟨dest', vol', heq, -, -, -, hfilled⟩ := h.read (m := m) hrange dest
    refine ⟨dest', vol', heq, fun j hj i hi => ?_⟩
    have hlt : (j + 1) * s.vol.blockSize ≤ n * s.vol.blockSize := mul_le_mul_right _ hj
    rw [succ_mul] at hlt
    rw [hfilled _ (by omega), content_block hi]
    exact hcurrent (b + j) (hrange.fits j hj) i hi

theorem current_write_iff {vol' : Volume} (h : Current s)
    (hrange : InRange s.vol.blockSize b n) (hsize : vol'.blockSize = s.vol.blockSize)
    (hdevice : ∀ block, ∀ i < s.vol.blockSize, vol'.device block i =
      if b ≤ block ∧ block < b + n ∧ Cached s.vol block
      then src ((block - b) * s.vol.blockSize + i) else s.vol.device block i) :
    Current ⟨vol', given s.vol.blockSize b n src s.expected⟩ ↔ guard s (.write b n src) := by
  constructor
  · intro hcurrent j hj
    by_cases hcached : Cached s.vol (b + j)
    · exact .inl hcached
    right
    intro i hi
    have hfits := hrange.fits j hj
    have hnew : vol'.device (b + j) i = given s.vol.blockSize b n src s.expected (b + j) i :=
      hcurrent (b + j) (hsize ▸ hfits) i (hsize ▸ hi)
    have hlost : ¬ (b ≤ b + j ∧ b + j < b + n ∧ Cached s.vol (b + j)) :=
      fun hall => hcached hall.2.2
    rw [hdevice _ i hi, if_neg hlost, h (b + j) hfits i hi, given,
      if_pos (by omega), Nat.add_sub_cancel_left] at hnew
    exact hnew.symm
  · intro hguard block hfits i hi
    rw [hsize] at hfits hi
    change vol'.device block i = given s.vol.blockSize b n src s.expected block i
    rw [hdevice block i hi, given]
    by_cases hin : b ≤ block ∧ block < b + n
    · obtain ⟨j, rfl⟩ := Nat.exists_eq_add_of_le hin.1
      rw [if_pos hin, Nat.add_sub_cancel_left]
      by_cases hcached : Cached s.vol (b + j)
      · rw [if_pos ⟨hin.1, hin.2, hcached⟩]
      · rw [if_neg (fun hall => hcached hall.2.2), h (b + j) hfits i hi]
        exact (((hguard j (by omega)).resolve_left hcached) i hi).symm
    · rw [if_neg hin, if_neg (fun hall => hin ⟨hall.1, hall.2.1⟩)]
      exact h block hfits i hi

structure Inv (size : ℕ) (s : System) : Prop where
  linked : Linked s.vol
  size : s.vol.blockSize = size
  current : Current s

theorem inv_step {op : Op} (h : Inv size s) (hop : op.InRange size) (hguard : guard s op) :
    ∃ t, step m s op = some t ∧ Inv size t := by
  obtain rfl := h.size
  cases op with
  | read b n dest =>
    obtain ⟨dest', vol', heq, hlinked, hsize, hdevice, -⟩ := h.linked.read (m := m) hop dest
    refine ⟨{ s with vol := vol' }, by simp [step, heq], hlinked, hsize, ?_⟩
    intro block hfits i hi
    rw [hsize] at hfits hi
    rw [hdevice]
    exact h.current block hfits i hi
  | write b n src =>
    obtain ⟨vol', heq, hlinked, hsize, hdevice⟩ := h.linked.write (m := m) hop src
    refine ⟨_, by rw [step, heq]; rfl, hlinked, hsize, ?_⟩
    exact (current_write_iff h.current hop hsize hdevice).mpr hguard

theorem guard_of_readsBack {op : Op} (h : Inv size s) (hop : op.InRange size)
    (hstep : step m s op = some t) (ht : ReadsBack m t) : guard s op := by
  obtain rfl := h.size
  cases op with
  | read b n dest => trivial
  | write b n src =>
    obtain ⟨vol', heq, hlinked, hsize, hdevice⟩ := h.linked.write (m := m) hop src
    rw [step, heq] at hstep
    cases hstep
    exact (current_write_iff h.current hop hsize hdevice).mp ((readsBack_iff hlinked).mp ht)

/-- Over any calls: every write meets the guard exactly if after each of them every read returns
what was written last. -/
theorem volume_reads_back_iff {blockSize : ℕ} {device : Device}
    (hhandle : (lvmAddVolume blockSize device).cacheHandle.isSome) {ops : List Op}
    (hops : ∀ op ∈ ops, op.InRange blockSize) :
    Along (step m) guard ⟨lvmAddVolume blockSize device, device⟩ ops ↔ ∀ bs, bs <+: ops → ∃ t,
        run (step m) ⟨lvmAddVolume blockSize device, device⟩ bs = some t ∧ ReadsBack m t := by
  obtain ⟨c, hc⟩ := Option.isSome_iff_exists.mp hhandle
  have hcreate : iocacheCreate blockSize 1024 = some c := by simpa only [lvmAddVolume] using hc
  obtain ⟨-, -, hsize, -⟩ := ready_created hcreate
  have hsector : c.sectorSize = blockSize := by exact_mod_cast hsize
  have hcoherent : Coherent blockSize (OnDevice blockSize device) c :=
    hsector ▸ coherent_created hcreate
  have hinv : Inv blockSize ⟨lvmAddVolume blockSize device, device⟩ :=
    ⟨⟨c, hc, hcoherent⟩, rfl, fun _ _ _ _ => rfl⟩
  have hallowed : Along (step m) (fun _ op => op.InRange blockSize)
      ⟨lvmAddVolume blockSize device, device⟩ ops := along_of_forall fun op hop _ => hops op hop
  exact along_iff_prefixes (fun _ _ => inv_step)
    (fun _ h => (readsBack_iff h.linked).mpr h.current) (fun _ _ _ => guard_of_readsBack) hinv
    hallowed

def stillMachine : Machine := ⟨fun _ => 0, fun _ _ => 0⟩

def sevens : System := ⟨lvmAddVolume 512 fun _ _ => 7, fun _ _ => 7⟩

def readFirst : List Op := [.read 0 2 fun _ => 0, .write 1 1 fun _ => 1]

theorem readFirst_inRange : ∀ op ∈ readFirst, op.InRange 512 := by
  intro op hop
  simp only [readFirst, List.mem_cons, List.not_mem_nil, or_false] at hop
  rcases hop with rfl | rfl
  · exact ⟨by decide, by decide⟩
  · exact ⟨by decide, by decide⟩

theorem volume_reads_back_sample : Along (step stillMachine) guard sevens readFirst ∧
    ∀ bs, bs <+: readFirst → ∃ t, run (step stillMachine) sevens bs = some t ∧
      ReadsBack stillMachine t := by
  have hguard : Along (step stillMachine) guard sevens readFirst := by decide
  have hhandle : (lvmAddVolume 512 fun _ _ => 7).cacheHandle.isSome := by decide
  exact ⟨hguard, (volume_reads_back_iff hhandle readFirst_inRange).mp hguard⟩

/-- A block that was never read is written, and still holds what stood on the device. -/
theorem unread_block_not_written :
    ((run (step stillMachine) sevens [.write 0 1 fun _ => 1]).bind fun t =>
      (lvmIntReadVolume stillMachine t.vol 0 1 fun _ => 0).map fun (done, dest, _) =>
        (done, dest 0, t.expected 0 0)) = some (1, 7, 1) := by
  decide

end LvmVolumes
