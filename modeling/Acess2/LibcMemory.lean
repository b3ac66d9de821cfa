import Mathlib.Algebra.Order.Ring.Int
import Mathlib.Data.UInt
import Acess2.BufferCopies

/-! Bytes moved in memory: `memmove` of the kernel's `libc.c`, and `qsort` of the C library. -/
namespace LibcMemory

open Function BufferCopies List Nat

variable (mem : ℕ → UInt8)

/-- `memcpy`, byte by byte from the lowest address on -/
def copyUp (dest src : ℕ) : ℕ → ℕ → UInt8
  | 0 => mem
  | n + 1 => update (copyUp dest src n) (dest + n) (copyUp dest src n (src + n))

/-- `for( int i = len; i--; )`, for a `len` that an `int` has -/
def copyDown (dest src : ℕ) : ℕ → (ℕ → UInt8) → ℕ → UInt8
  | 0, mem => mem
  | i + 1, mem => copyDown dest src i (update mem (dest + i) (mem (src + i)))

/-- `memmove`, with addresses of `w` bits -/
def memmove (w dest src len : ℕ) : ℕ → UInt8 :=
  if len = 0 ∨ dest = src then mem
  else if dest > (src + len) % 2 ^ w then copyUp mem dest src len
  else if (dest + len) % 2 ^ w < src then copyUp mem dest src len
  else if dest < src then copyUp mem dest src len
  else copyDown dest src len mem

variable {mem} {dest src n : ℕ}

theorem memcpy_succ {b : ℕ → UInt8} :
    memcpy mem dest (n + 1) b = update (memcpy mem dest n b) (dest + n) (b n) := by
  funext a
  by_cases ha : a = dest + n
  · rw [ha, update_self, memcpy_inside (by omega)]
  · rw [update_of_ne ha]
    exact if_congr (by omega) rfl rfl

theorem memcpy_behind {m : ℕ → UInt8} (h : ∀ a, a < dest ∨ dest + n ≤ a → m a = mem a) :
    memcpy m dest n (behind mem dest) = mem := by
  funext a
  unfold memcpy behind
  split_ifs with ha
  · rw [Nat.add_sub_cancel' ha.1]
  · exact h a (by omega)

theorem copyUp_eq (h : dest ≤ src ∨ src + n ≤ dest) :
    copyUp mem dest src n = memcpy mem dest n (behind mem src) := by
  induction n with
  | zero => exact memcpy_zero.symm
  | succ n ih =>
    rw [copyUp, ih (by omega), memcpy_outside (i := src + n) (by omega), memcpy_succ]
    rfl

/-- What is still to be read lies below what has been written. -/
theorem copyDown_eq (h : src ≤ dest) :
    copyDown dest src n mem = memcpy mem dest n (behind mem src) := by
  induction n generalizing mem with
  | zero => exact memcpy_zero.symm
  | succ n ih =>
    have hsource : ∀ i < n, behind (update mem (dest + n) (mem (src + n))) src i =
        behind mem src i :=
      fun i hi => update_of_ne (by omega) _ _
    rw [copyDown, ih, memcpy_congr hsource, memcpy_succ]
    funext a
    by_cases ha : a = dest + n
    · rw [ha, memcpy_outside (by omega), update_self, update_self]
      rfl
    · simp only [memcpy, update_of_ne ha]

theorem copyUp_written {i : ℕ} (hi : i < n) :
    copyUp mem dest src n (dest + i) = copyUp mem dest src i (src + i) := by
  induction n with
  | zero => exact absurd hi (Nat.not_lt_zero i)
  | succ n ih =>
    rcases Nat.lt_succ_iff_lt_or_eq.mp hi with hlt | rfl
    · rw [copyUp, update_of_ne (by omega), ih hlt]
    · exact update_self ..

/-- Up over itself, a range is overwritten before it is read. -/
theorem copyUp_overlap (hlt : src < dest) (hover : dest < src + n) :
    copyUp mem dest src n (dest + (dest - src)) = mem src := by
  rw [copyUp_written (by omega), Nat.add_sub_cancel' (Nat.le_of_lt hlt)]
  exact copyUp_written (Nat.sub_pos_of_lt hlt)

variable (mem) in
/-- The bytes at `dest` are those that were at `src`, and no others have changed. -/
def Moved (w dest src len : ℕ) : Prop :=
  (∀ i < len, memmove mem w dest src len (dest + i) = mem (src + i)) ∧
    ∀ a, a < dest ∨ dest + len ≤ a → memmove mem w dest src len a = mem a

/-- Every content is moved, unless the range ends with the address space and is moved up over
itself: that goes in the wrong order. -/
theorem memmove_moves (w dest src len : ℕ) (hw : 32 ≤ w) (hlen : len < 2 ^ 31)
    (hdest : dest + len ≤ 2 ^ w) (hsrc : src + len ≤ 2 ^ w) :
    (∀ mem, Moved mem w dest src len) ↔
      dest + len < 2 ^ w ∨ dest ≤ src ∨ src + len ≤ dest := by
  constructor
  · intro hmoved
    by_contra htop
    obtain ⟨hend, hlow, hover⟩ : dest + len = 2 ^ w ∧ src < dest ∧ dest < src + len := by omega
    have hwide : 2 ^ 32 ≤ 2 ^ w := Nat.pow_le_pow_right (by decide) hw
    have hup (mem : ℕ → UInt8) : memmove mem w dest src len = copyUp mem dest src len := by
      rw [memmove, if_neg (by omega), hend, Nat.mod_self, if_pos (show 0 < src by omega), ite_self]
    have hbyte := (hmoved (fun a => if a = src then 1 else 0)).1 (dest - src) (by omega)
    rw [hup, copyUp_overlap hlow hover] at hbyte
    dsimp only at hbyte
    rw [if_pos rfl, if_neg (by omega)] at hbyte
    exact absurd hbyte (by decide)
  · intro htop mem
    have hmove : memmove mem w dest src len = memcpy mem dest len (behind mem src) := by
      unfold memmove
      split_ifs with hsame habove hbelow hlow
      · rcases hsame with rfl | rfl
        · exact memcpy_zero.symm
        · exact (memcpy_behind fun _ _ => rfl).symm
      · apply copyUp_eq
        rcases Nat.lt_or_eq_of_le hsrc with hlt | htop
        · rw [mod_eq_of_lt hlt] at habove
          omega
        · omega
      · apply copyUp_eq
        rcases htop with hlt | htop
        · rw [mod_eq_of_lt hlt] at hbelow
          omega
        · exact htop
      · exact copyUp_eq (by omega)
      · exact copyDown_eq (by omega)
    rw [Moved, hmove]
    exact ⟨fun i hi => memcpy_inside hi, fun a ha => memcpy_outside ha⟩

theorem overlap_moved :
    memmove UInt8.ofNat 32 2 0 4 5 = 3 ∧ memmove UInt8.ofNat 32 2 0 4 6 = 6 := by
  have hmoves := (memmove_moves 32 2 0 4 (by decide) (by decide) (by decide) (by decide)).mpr
    (by decide) UInt8.ofNat
  exact ⟨hmoves.1 3 (by decide), hmoves.2 6 (by decide)⟩

theorem top_garbled : memmove UInt8.ofNat 32 (2 ^ 32 - 4) (2 ^ 32 - 6) 4 (2 ^ 32 - 2) ≠
    UInt8.ofNat (2 ^ 32 - 4) := by
  decide

variable (compar : List UInt8 → List UInt8 → ℤ) (base size nmemb : ℕ)

def element (mem : ℕ → UInt8) (i : ℕ) : List UInt8 := slice mem (base + size * i) size

def elements (mem : ℕ → UInt8) : List (List UInt8) := (range nmemb).map (element base size mem)

/-- The inner loop of `qsort` -/
def smallest (mem : ℕ → UInt8) (i : ℕ) : ℕ :=
  (range' (i + 1) (nmemb - (i + 1))).foldl (fun min j =>
    if compar (element base size mem j) (element base size mem min) < 0 then j else min) i

/-- A round of the outer loop, which copies `swap` back to where it came from -/
def round (mem : ℕ → UInt8) (i : ℕ) : ℕ → UInt8 :=
  let min := smallest compar base size nmemb mem i
  if i ≠ min then
    let swap := behind mem (base + size * i)
    memcpy (memcpy mem (base + size * i) size (behind mem (base + size * min)))
      (base + size * i) size swap
  else mem

def qsort (mem : ℕ → UInt8) : ℕ → UInt8 :=
  if nmemb = 0 ∨ nmemb = 1 then mem
  else (range (nmemb - 1)).foldl (round compar base size nmemb) mem

theorem round_eq (mem : ℕ → UInt8) (i : ℕ) : round compar base size nmemb mem i = mem := by
  dsimp only [round]
  split_ifs
  · exact memcpy_behind fun a ha => memcpy_outside ha
  · rfl

theorem qsort_eq (mem : ℕ → UInt8) : qsort compar base size nmemb mem = mem := by
  unfold qsort
  split_ifs
  · rfl
  · induction range (nmemb - 1) with
    | nil => rfl
    | cons i is ih => rw [foldl_cons, round_eq, ih]

/-- No `compar` makes it move anything: sorted is only what has been so before. -/
theorem qsort_sorts_iff (mem : ℕ → UInt8) :
    ((elements base size nmemb (qsort compar base size nmemb mem)).Perm
        (elements base size nmemb mem) ∧
      (elements base size nmemb (qsort compar base size nmemb mem)).IsChain (compar · · ≤ 0)) ↔
      (elements base size nmemb mem).IsChain (compar · · ≤ 0) := by
  simp only [qsort_eq, Perm.refl, true_and]

theorem pair_unsorted : let compar (a b : List UInt8) : ℤ := a.sum.toNat - b.sum.toNat
    let mem := qsort compar 0 1 2 fun a => 2 - UInt8.ofNat a
    elements 0 1 2 mem = [[2], [1]] ∧ ¬ (elements 0 1 2 mem).IsChain (compar · · ≤ 0) := by
  decide

end LibcMemory
