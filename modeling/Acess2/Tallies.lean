import Mathlib.Algebra.BigOperators.Intervals

/-! How many of the first `n` entries of a table satisfy a predicate, and sums of such numbers. -/
namespace Tallies

open Function Finset

variable {α : Type*} (p : α → Prop) [DecidablePred p]

def tally (f : ℕ → α) : ℕ → ℕ
  | 0 => 0
  | n + 1 => tally f n + if p (f n) then 1 else 0

variable {p} {f : ℕ → α} {n : ℕ}

theorem tally_eq_sum (f : ℕ → α) (n : ℕ) :
    tally p f n = ∑ j ∈ Finset.range n, if p (f j) then 1 else 0 := by
  induction n with
  | zero => rfl
  | succ n ih => rw [tally, ih, sum_range_succ]

theorem tally_congr {β : Type*} {q : β → Prop} [DecidablePred q] {g : ℕ → β}
    (h : ∀ i < n, p (f i) ↔ q (g i)) : tally p f n = tally q g n := by
  rw [tally_eq_sum, tally_eq_sum]
  exact sum_congr rfl fun i hi => if_congr (h i (mem_range.mp hi)) rfl rfl

variable {i : ℕ} {w : α → ℕ}

theorem sum_update (hi : i < n) (a : α) : ∑ j ∈ Finset.range n, w (update f i a j) + w (f i) =
      ∑ j ∈ Finset.range n, w (f j) + w a := by
  have hmem := mem_range.mpr hi
  simp only [apply_update (fun _ => w)]
  rw [sum_update_of_mem hmem, ← add_sum_erase _ (fun j => w (f j)) hmem, sdiff_singleton_eq_erase]
  omega

theorem sum_update_last (a : α) : ∑ j ∈ Finset.range (n + 1), w (update f n a j) =
      ∑ j ∈ Finset.range n, w (f j) + w a := by
  simp only [apply_update (fun _ => w)]
  rw [sum_range_succ, update_self, sum_update_of_notMem]
  rw [mem_range]
  omega

theorem tally_update (hi : i < n) (a : α) : tally p (update f i a) n + (if p (f i) then 1 else 0) =
      tally p f n + if p a then 1 else 0 := by
  rw [tally_eq_sum, tally_eq_sum]
  exact sum_update (w := fun x => if p x then 1 else 0) hi a

theorem tally_eq_zero (h : ∀ i < n, ¬ p (f i)) : tally p f n = 0 := by
  rw [tally_eq_sum]
  exact sum_eq_zero fun i hi => if_neg (h i (mem_range.mp hi))

theorem tally_eq_iff {m k : ℕ} (hle : m ≤ k) :
    tally p f k = tally p f m ↔ ∀ i, m ≤ i → i < k → ¬ p (f i) := by
  rw [tally_eq_sum, tally_eq_sum, ← sum_range_add_sum_Ico _ hle, Nat.add_eq_left, sum_eq_zero_iff]
  simp only [mem_Ico, and_imp, ite_eq_right_iff, one_ne_zero, imp_false]

end Tallies
