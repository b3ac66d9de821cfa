import Mathlib.Order.Basic

/-! Copies between buffers.
A buffer is what stands in memory from a pointer on; `memcpy` replaces a range of it. -/
namespace BufferCopies

variable {β : Type*} {dst src src' : ℕ → β} {p n m i : ℕ}

/-- `memcpy(dst + p, src, n)` -/
def memcpy (dst : ℕ → β) (p n : ℕ) (src : ℕ → β) : ℕ → β :=
  fun i => if p ≤ i ∧ i < p + n then src (i - p) else dst i

def behind (b : ℕ → β) (p : ℕ) : ℕ → β := fun i => b (p + i)

def splice (dst : ℕ → β) (p : ℕ) (rest : ℕ → β) : ℕ → β :=
  fun i => if i < p then dst i else rest (i - p)

def slice (b : ℕ → β) (p n : ℕ) : List β := (List.range n).map fun i => b (p + i)

theorem memcpy_inside (hi : i < n) : memcpy dst p n src (p + i) = src i := by
  have hrange : p ≤ p + i ∧ p + i < p + n := by omega
  rw [memcpy, if_pos hrange, Nat.add_sub_cancel_left]

theorem memcpy_outside (hi : i < p ∨ p + n ≤ i) : memcpy dst p n src i = dst i := by
  have hrange : ¬ (p ≤ i ∧ i < p + n) := by omega
  rw [memcpy, if_neg hrange]

theorem memcpy_start (hi : i < n) : memcpy dst 0 n src i = src i := by
  have h : memcpy dst 0 n src (0 + i) = src i := memcpy_inside hi
  rwa [Nat.zero_add] at h

theorem memcpy_congr (h : ∀ i < n, src i = src' i) : memcpy dst p n src = memcpy dst p n src' := by
  funext i
  by_cases hrange : p ≤ i ∧ i < p + n
  · have hi : i - p < n := by omega
    rw [memcpy, memcpy, if_pos hrange, if_pos hrange, h _ hi]
  · rw [memcpy, memcpy, if_neg hrange, if_neg hrange]

theorem memcpy_memcpy :
    memcpy (memcpy dst p n src) (p + n) m (behind src n) = memcpy dst p (n + m) src := by
  funext i
  by_cases hsecond : p + n ≤ i ∧ i < p + n + m
  · have hrange : p ≤ i ∧ i < p + (n + m) := by omega
    have hindex : n + (i - (p + n)) = i - p := by omega
    rw [memcpy, if_pos hsecond, memcpy, if_pos hrange, behind, hindex]
  rw [memcpy, if_neg hsecond]
  by_cases hfirst : p ≤ i ∧ i < p + n
  · have hrange : p ≤ i ∧ i < p + (n + m) := by omega
    rw [memcpy, if_pos hfirst, memcpy, if_pos hrange]
  · have hrange : ¬ (p ≤ i ∧ i < p + (n + m)) := by omega
    rw [memcpy, if_neg hfirst, memcpy, if_neg hrange]

theorem memcpy_append :
    memcpy (memcpy dst 0 n src) n m (behind src n) = memcpy dst 0 (n + m) src := by
  have h : memcpy (memcpy dst 0 n src) (0 + n) m (behind src n) = memcpy dst 0 (n + m) src :=
    memcpy_memcpy
  rwa [Nat.zero_add] at h

theorem memcpy_zero : memcpy dst p 0 src = dst := by
  funext i
  exact memcpy_outside (by omega)

theorem behind_behind : behind (behind src p) n = behind src (p + n) := by
  funext i
  rw [behind, behind, behind, Nat.add_assoc]

theorem memcpy_patch {old part : ℕ → β} {q : ℕ} (hpart : q + m ≤ n) :
    memcpy dst p n (memcpy (memcpy old 0 n (behind dst p)) q m part) =
      memcpy dst (p + q) m part := by
  funext i
  by_cases hi : p ≤ i ∧ i < p + n
  · obtain ⟨j, rfl⟩ := Nat.exists_eq_add_of_le hi.1
    have hj : j < n := by omega
    rw [memcpy_inside hj]
    by_cases hpatch : q ≤ j ∧ j < q + m
    · obtain ⟨k, rfl⟩ := Nat.exists_eq_add_of_le hpatch.1
      have hk : k < m := by omega
      rw [memcpy_inside hk, ← Nat.add_assoc, memcpy_inside hk]
    · rw [memcpy_outside (by omega), memcpy_start hj, memcpy_outside (by omega)]
      rfl
  · rw [memcpy_outside (by omega), memcpy_outside (by omega)]

theorem splice_behind : splice dst p (behind dst p) = dst := by
  funext i
  by_cases hi : i < p
  · rw [splice, if_pos hi]
  · rw [splice, if_neg hi, behind, Nat.add_sub_cancel' (Nat.le_of_not_lt hi)]

theorem splice_memcpy : splice dst p (memcpy (behind dst p) 0 n src) = memcpy dst p n src := by
  funext i
  by_cases hi : i < p
  · rw [splice, if_pos hi, memcpy_outside (.inl hi)]
  obtain ⟨j, rfl⟩ := Nat.exists_eq_add_of_le (Nat.le_of_not_lt hi)
  rw [splice, if_neg hi, Nat.add_sub_cancel_left]
  by_cases hj : j < n
  · rw [memcpy_start hj, memcpy_inside hj]
  · rw [memcpy_outside (by omega), memcpy_outside (by omega)]
    rfl

end BufferCopies
