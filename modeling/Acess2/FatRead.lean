import Acess2.BufferCopies
import Acess2.ByteMemory
import Acess2.MachineWords

/-! Reading a file of a FAT volume (`FAT_Read`, `fatio.c`). A cluster is a `Uint32`, with what is
computed from it reduced once; the device is its bytes, and every read of it succeeds. -/
namespace FatRead

open BufferCopies ByteMemory MachineWords Nat

inductive FatType where
  | fat12
  | fat16
  | fat32

/-- What `tFAT_VolInfo` says of a volume, with the volume -/
structure Volume where
  type : FatType
  resvSectCount : ℕ
  firstDataSect : ℕ
  bps : ℕ
  spc : ℕ
  device : Memory
  bps_pos : 0 < bps
  spc_pos : 0 < spc

variable (v : Volume)

def Volume.bytesPerCluster : ℕ := v.spc * v.bps

/-- `GETFATVALUE_EOC` -/
def endOfChain : ℕ := 0xFFFFFFFF

def fatEntry (marker val : ℕ) : ℕ := if val = marker then endOfChain else val

def getFatValue (cluster : ℕ) : ℕ :=
  let ofs := v.resvSectCount * 512
  match v.type with
  | .fat12 =>
    let val := load v.device ((ofs + cluster / 2 * 3) % 2 ^ 32) 3
    fatEntry 0x0FFF (if cluster % 2 = 1 then val / 2 ^ 12 else val % 2 ^ 12)
  | .fat16 => fatEntry 0xFFFF (load v.device ((ofs + cluster * 2) % 2 ^ 32) 2)
  | .fat32 => fatEntry 0x00FFFFFF (load v.device ((ofs + cluster * 4) % 2 ^ 32) 4)

/-- Where `FAT_int_ReadCluster` reads; `Cluster-2` is a `Uint32` too. -/
def address (cluster : ℕ) : ℕ :=
  (v.firstDataSect + (cluster + (2 ^ 32 - 2)) * v.spc) * v.bps % 2 ^ 32

def readCluster (cluster : ℕ) : ℕ → UInt8 := behind v.device (address v cluster)

def skip : ℕ → ℕ → Option ℕ
  | 0, cluster => some cluster
  | i + 1, cluster =>
    let cluster := getFatValue v cluster
    if cluster = endOfChain then none else skip i cluster

def bulk (length finalBytes : ℕ) : ℕ → ℕ → ℕ → (ℕ → UInt8) → ℕ × (ℕ → UInt8)
  | 0, cluster, pos, buffer =>
    if finalBytes > 0 then
      if cluster = endOfChain then (pos, buffer)
      else (length, memcpy buffer pos (length - pos) (readCluster v cluster))
    else (length, buffer)
  | count + 1, cluster, pos, buffer =>
    if cluster = endOfChain then (pos, buffer)
    else bulk length finalBytes count (getFatValue v cluster) (pos + v.bytesPerCluster)
      (memcpy buffer pos v.bytesPerCluster (readCluster v cluster))

/-- The rest of `FAT_Read`, from the cluster of the offset on -/
def readFrom (cluster offset length : ℕ) (buffer : ℕ → UInt8) : ℕ × (ℕ → UInt8) :=
  let bpc := v.bytesPerCluster
  if toInt (toInt offset + toInt length) ≤ bpc then
    (length, memcpy buffer 0 length (behind (readCluster v cluster) offset))
  else if offset > 0 then
    let pos := bpc - offset
    let buffer := memcpy buffer 0 pos (behind (readCluster v cluster) offset)
    let cluster := getFatValue v cluster
    if cluster = endOfChain then (pos, buffer)
    else bulk v length ((length - pos) % bpc) ((length - pos) / bpc) cluster pos buffer
  else bulk v length (length % bpc) (length / bpc) cluster 0 buffer

/-- `FAT_Read` on the node's `Inode` and `Size`; the value with what is then in the buffer -/
def read (inode size offset length : ℕ) (buffer : ℕ → UInt8) : ℕ × (ℕ → UInt8) :=
  if offset > size then (0, buffer)
  else
    let length := if (offset + length) % 2 ^ 64 > size then size - offset else length
    match skip v (offset / v.bytesPerCluster) (inode % 2 ^ 32) with
    | none => (0, buffer)
    | some cluster => readFrom v cluster (offset % v.bytesPerCluster) length buffer

variable (c : ℕ)

def chain (k : ℕ) : ℕ := (getFatValue v)^[k] c

def content (i : ℕ) : UInt8 :=
  readCluster v (chain v c (i / v.bytesPerCluster)) (i % v.bytesPerCluster)

theorem chain_succ (k : ℕ) : getFatValue v (chain v c k) = chain v c (k + 1) :=
  (Function.iterate_succ_apply' ..).symm

theorem bytesPerCluster_pos : 0 < v.bytesPerCluster := mul_pos v.spc_pos v.bps_pos

theorem address_eq {cluster : ℕ} (hc : 2 ≤ cluster)
    (hfit : (v.firstDataSect + (cluster - 2) * v.spc) * v.bps < 2 ^ 32) :
    address v cluster = (v.firstDataSect + (cluster - 2) * v.spc) * v.bps := by
  obtain ⟨k, rfl⟩ := Nat.exists_eq_add_of_le hc
  have hwrap : (v.firstDataSect + (2 + k + (2 ^ 32 - 2)) * v.spc) * v.bps =
      (v.firstDataSect + (2 + k - 2) * v.spc) * v.bps + 2 ^ 32 * (v.spc * v.bps) := by
    rw [show 2 + k + (2 ^ 32 - 2) = 2 + k - 2 + 2 ^ 32 by omega]
    ring
  rw [address, hwrap, add_mul_mod_self_left, mod_eq_of_lt hfit]

variable {n o : ℕ}

theorem copy_cluster (hn : o + n ≤ v.bytesPerCluster) (k p : ℕ) (buffer : ℕ → UInt8) :
    memcpy buffer p n (behind (readCluster v (chain v c k)) o) =
      memcpy buffer p n (behind (content v c) (k * v.bytesPerCluster + o)) := by
  refine memcpy_congr fun i hi => ?_
  have hmod : (k * v.bytesPerCluster + o + i) % v.bytesPerCluster = o + i := by
    rw [add_assoc, mul_add_mod', mod_eq_of_lt (by omega)]
  have hdiv : (k * v.bytesPerCluster + o + i) / v.bytesPerCluster = k := by
    rw [add_assoc, mul_comm, mul_add_div (bytesPerCluster_pos v), div_eq_of_lt (by omega), add_zero]
  simp only [behind, content, hmod, hdiv]

theorem copy_start (hn : n ≤ v.bytesPerCluster) (k p : ℕ) (buffer : ℕ → UInt8) :
    memcpy buffer p n (readCluster v (chain v c k)) =
      memcpy buffer p n (behind (content v c) (k * v.bytesPerCluster)) := by
  have hcopy := copy_cluster v c (o := 0) (n := n) (by omega) k p buffer
  rwa [readCluster, behind_behind, add_zero, add_zero] at hcopy

variable {v c}

theorem skip_eq {c' : ℕ} (n : ℕ) (hskip : skip v n c = some c') : c' = chain v c n := by
  induction n generalizing c with
  | zero => exact (Option.some.inj hskip).symm
  | succ n ih =>
    rw [skip] at hskip
    split_ifs at hskip
    exact ih hskip

theorem skip_ne_none (n : ℕ) (hchain : ∀ k ≤ n, chain v c k ≠ endOfChain) : skip v n c ≠ none := by
  induction n generalizing c with
  | zero => simp [skip]
  | succ n ih =>
    have hnext : getFatValue v c ≠ endOfChain := hchain 1 (by omega)
    rw [skip, if_neg hnext]
    exact ih fun k hk => hchain (k + 1) (by omega)

/-- From a cluster of the chain on, the loop copies all that is left to read. -/
theorem bulk_eq (count : ℕ) : ∀ (n k pos : ℕ) (buffer : ℕ → UInt8), n / v.bytesPerCluster = count →
    (∀ j, j * v.bytesPerCluster < n → chain v c (k + j) ≠ endOfChain) →
    bulk v (pos + n) (n % v.bytesPerCluster) count (chain v c k) pos buffer =
      (pos + n, memcpy buffer pos n (behind (content v c) (k * v.bytesPerCluster))) := by
  have hbpc := bytesPerCluster_pos v
  induction count with
  | zero =>
    intro n k pos buffer hcount hchain
    have hn : n < v.bytesPerCluster := (div_eq_zero_iff_lt hbpc).mp hcount
    rw [bulk, mod_eq_of_lt hn]
    split_ifs with hpos hend
    · exact absurd hend (hchain 0 (by omega))
    · rw [Nat.add_sub_cancel_left, copy_start v c hn.le]
    · rw [Nat.eq_zero_of_not_pos hpos, memcpy_zero]
  | succ count ih =>
    intro n k pos buffer hcount hchain
    have hle : v.bytesPerCluster ≤ n := by
      by_contra hlt
      rw [div_eq_of_lt (by omega)] at hcount
      cases hcount
    obtain ⟨m, rfl⟩ := Nat.exists_eq_add_of_le hle
    have hthis : chain v c k ≠ endOfChain := hchain 0 (by omega)
    rw [bulk, if_neg hthis, chain_succ, copy_start v c le_rfl, add_mod_left, ← add_assoc,
      ih m (k + 1)]
    · rw [add_mul, one_mul, ← behind_behind, memcpy_memcpy]
    · rw [add_div_left _ hbpc] at hcount
      exact succ.inj hcount
    · intro j hj
      have hnext := hchain (j + 1) (by rw [add_mul]; omega)
      rwa [add_assoc, add_comm 1 j]

theorem readFrom_eq (ho : o < v.bytesPerCluster) (hn : o + n < 2 ^ 31) (k : ℕ)
    (hchain : ∀ j, j * v.bytesPerCluster < o + n → chain v c (k + j) ≠ endOfChain)
    (buffer : ℕ → UInt8) :
    readFrom v (chain v c k) o n buffer =
      (n, memcpy buffer 0 n (behind (content v c) (k * v.bytesPerCluster + o))) := by
  have hint : toInt (toInt o + toInt n) = (o + n : ℕ) := by
    rw [toInt_of_lt (by omega), toInt_of_lt (by omega), ← cast_add, toInt_of_lt hn]
  simp only [readFrom, hint, cast_le]
  split_ifs with hone halign hend
  · rw [copy_cluster v c hone]
  · rw [chain_succ] at hend
    exact absurd hend (hchain 1 (by omega))
  · obtain ⟨pos, hpos⟩ := Nat.exists_eq_add_of_le ho.le
    obtain ⟨m, rfl⟩ : ∃ m, n = pos + m := Nat.exists_eq_add_of_le (by omega)
    have hstart : (k + 1) * v.bytesPerCluster = k * v.bytesPerCluster + o + pos := by
      rw [add_mul]
      omega
    have hbulk := bulk_eq (v := v) (c := c) _ m (k + 1) pos
      (memcpy buffer 0 pos (behind (content v c) (k * v.bytesPerCluster + o))) rfl fun j hj => by
        have hnext := hchain (j + 1) (by rw [add_mul]; omega)
        rwa [add_assoc, add_comm 1 j]
    rw [hstart, ← behind_behind (p := k * v.bytesPerCluster + o), memcpy_append] at hbulk
    rw [show v.bytesPerCluster - o = pos by omega, Nat.add_sub_cancel_left, chain_succ,
      copy_cluster v c (by omega), hbulk]
  · obtain rfl : o = 0 := by omega
    have hbulk := bulk_eq (c := c) _ n k 0 buffer rfl fun j hj => hchain j (by omega)
    rwa [zero_add] at hbulk

/-- A read gives the bytes of the chain behind the offset, up to the end of the file, and no more.
-/
theorem read_returns_content (v : Volume) (inode size offset length : ℕ) (buffer : ℕ → UInt8)
    (hsize : size < 2 ^ 31) (hwrap : offset + length < 2 ^ 64)
    (hchain : ∀ k, k * v.bytesPerCluster < size → chain v (inode % 2 ^ 32) k ≠ endOfChain) :
    let n := min length (size - offset)
    read v inode size offset length buffer =
        (n, memcpy buffer 0 n (behind (content v (inode % 2 ^ 32)) offset)) ∧
      ∀ cluster, 2 ≤ cluster → (v.firstDataSect + (cluster - 2) * v.spc) * v.bps < 2 ^ 32 →
        address v cluster = (v.firstDataSect + (cluster - 2) * v.spc) * v.bps := by
  refine ⟨?_, fun cluster => address_eq v⟩
  have hsplit := div_add_mod' offset v.bytesPerCluster
  rw [read]
  by_cases hpast : offset > size
  · rw [if_pos hpast, Nat.sub_eq_zero_of_le hpast.le, Nat.min_zero, memcpy_zero]
  have hclamp : (if (offset + length) % 2 ^ 64 > size then size - offset else length) =
      min length (size - offset) := by
    split_ifs <;> omega
  rw [if_neg hpast, hclamp]
  generalize hmin : min length (size - offset) = n
  cases hskip : skip v (offset / v.bytesPerCluster) (inode % 2 ^ 32) with
  | none =>
    have hempty : n = 0 := by
      by_contra hne
      refine skip_ne_none _ (fun k hk => hchain k ?_) hskip
      have := mul_le_mul_right v.bytesPerCluster hk
      omega
    simp only [hempty, memcpy_zero]
  | some cluster =>
    obtain rfl := skip_eq _ hskip
    have hread := readFrom_eq (c := inode % 2 ^ 32) (n := n)
      (mod_lt offset (bytesPerCluster_pos v)) (by omega) (offset / v.bytesPerCluster)
      (fun j hj => hchain _ (by rw [add_mul]; omega)) buffer
    rwa [hsplit] at hread

def sample : Volume :=
  ⟨.fat12, 1, 130, 4, 1, fun a => match a with
    | 516 => 0xF0 | 517 => 0xFF | 518 => 3 | 519 => 0 | a => UInt8.ofNat a, by decide, by decide⟩

theorem sample_read : (∀ k, k * sample.bytesPerCluster < 7 → chain sample 4 k ≠ endOfChain) ∧
      read sample 4 7 2 10 (fun _ => 0) =
        (5, memcpy (fun _ => 0) 0 5 (behind (content sample 4) 2)) ∧
      slice (content sample 4) 2 5 = [18, 19, 12, 13, 14] := by
  have hchain : ∀ k, k * sample.bytesPerCluster < 7 → chain sample 4 k ≠ endOfChain := by
    intro k hk
    have hlt : k < 2 := by
      change k * 4 < 7 at hk
      omega
    have hboth : ∀ k < 2, chain sample 4 k ≠ endOfChain := by decide +kernel
    exact hboth k hlt
  have hread := read_returns_content sample 4 7 2 10 (fun _ => 0) (by decide) (by decide) hchain
  exact ⟨hchain, hread.1, by decide +kernel⟩

end FatRead
