import Mathlib.Data.BitVec

/-! Bitmaps kept as arrays of `w`-bit words, bit `n` in word `n / w`. -/
namespace WordBitmaps

open Function Nat BitVec

abbrev Bitmap (w : ℕ) := ℕ → BitVec w

variable {w : ℕ} {b : Bitmap w}

section

variable (b) (n : ℕ)

def bit : Bool := (b (n / w)).getLsbD (n % w)

def setBit : Bitmap w :=
  update b (n / w) (b (n / w) ||| BitVec.twoPow w (n % w))

def clearBit : Bitmap w :=
  update b (n / w) (b (n / w) &&& ~~~ BitVec.twoPow w (n % w))

end

def fill (b : Bitmap w) (start count : ℕ) (value : BitVec w) : Bitmap w :=
  fun i => if start ≤ i ∧ i < start + count then value else b i

theorem mod_eq_iff {m n : ℕ} (hdiv : m / w = n / w) : n % w = m % w ↔ m = n := by
  refine ⟨fun hmod => ?_, fun h => by rw [h]⟩
  rw [← div_add_mod m w, ← div_add_mod n w, hdiv, hmod]

theorem bit_setBit (hw : 0 < w) (m n : ℕ) : bit (setBit b n) m = (bit b m || decide (m = n)) := by
  unfold bit setBit
  by_cases hword : m / w = n / w
  · have hlt : n % w < w := mod_lt n hw
    simp only [hword, update_self, getLsbD_or, getLsbD_twoPow, hlt,
      decide_true, Bool.true_and, mod_eq_iff hword]
  · have hne : m ≠ n := fun h => hword (by rw [h])
    simp [update_of_ne hword, hne]

theorem bit_clearBit (hw : 0 < w) (m n : ℕ) :
    bit (clearBit b n) m = (bit b m && !decide (m = n)) := by
  unfold bit clearBit
  by_cases hword : m / w = n / w
  · have hlt : n % w < w := mod_lt n hw
    have hlt' : m % w < w := mod_lt m hw
    simp only [hword, update_self, getLsbD_and, getLsbD_not,
      getLsbD_twoPow, hlt, hlt', decide_true, Bool.true_and, mod_eq_iff hword]
  · have hne : m ≠ n := fun h => hword (by rw [h])
    simp [update_of_ne hword, hne]

theorem bit_fill (start count : ℕ) (value : BitVec w) (n : ℕ) : bit (fill b start count value) n =
      if start ≤ n / w ∧ n / w < start + count then value.getLsbD (n % w) else bit b n := by
  unfold bit fill
  split <;> rfl

theorem full_iff (hw : 0 < w) (i : ℕ) :
    b i = BitVec.allOnes w ↔ ∀ n, n / w = i → bit b n = true := by
  constructor
  · intro hfull n hn
    simp [bit, hn, hfull, mod_lt n hw]
  · intro hbits
    apply eq_of_getLsbD_eq
    intro k hk
    have hword : (w * i + k) / w = i := by
      rw [mul_add_div hw, div_eq_of_lt hk, add_zero]
    have hbit := hbits (w * i + k) hword
    rw [bit, hword, mul_add_mod, mod_eq_of_lt hk] at hbit
    rw [hbit, getLsbD_allOnes, decide_eq_true hk]

theorem bit_zero (n : ℕ) : bit (fun _ => 0 : Bitmap w) n = false := by simp [bit]

theorem word_ne_zero {n : ℕ} (hbit : bit b n = true) : b (n / w) ≠ 0 := by
  intro hzero
  simp [bit, hzero] at hbit

variable {i : ℕ}

theorem getLsbD_mask (hi : i < w) (j : ℕ) : (1#w <<< i).getLsbD j = decide (i = j) := by
  rw [← twoPow_eq, getLsbD_twoPow, decide_eq_true hi, Bool.true_and]

theorem and_mask_ne_zero (x : BitVec w) (hi : i < w) :
    x &&& (1#w <<< i) ≠ 0 ↔ x.getLsbD i = true := by
  rw [← twoPow_eq, and_twoPow]
  split_ifs with hbit
  · refine iff_of_true (fun hzero => ?_) hbit
    have hget := getLsbD_mask hi i
    simp [← twoPow_eq, hzero] at hget
  · exact iff_of_false (fun h => h rfl) hbit

end WordBitmaps
