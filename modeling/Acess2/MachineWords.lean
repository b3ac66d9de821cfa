import Mathlib.Data.Int.ModEq

/-! Conversions to the types of the machine, as its compilers make them. -/
namespace MachineWords

open Int

/-- A value in an `int` -/
def toInt (x : ℤ) : ℤ := bmod x (2 ^ 32)

/-- A value in an unsigned word of `w` bits -/
def toWord (w : ℕ) (x : ℤ) : ℕ := (x % 2 ^ w).toNat

variable {x w : ℕ}

theorem toInt_of_lt (hx : x < 2 ^ 31) : toInt x = x := by
  rw [toInt, bmod_def]
  have hmod : (x : ℤ) % ((2 ^ 32 : ℕ) : ℤ) = x := by
    omega
  rw [hmod, if_pos (by omega)]

theorem toWord_of_lt (hx : x < 2 ^ w) : toWord w x = x := by
  have hmod : (x : ℤ) % 2 ^ w = ((x % 2 ^ w : ℕ) : ℤ) := by push_cast; rfl
  rw [toWord, hmod, Nat.mod_eq_of_lt hx, toNat_natCast]

theorem toWord_le (w x : ℕ) : toWord w x ≤ x := by
  have hmod : (x : ℤ) % 2 ^ w = ((x % 2 ^ w : ℕ) : ℤ) := by push_cast; rfl
  rw [toWord, hmod, toNat_natCast]
  exact Nat.mod_le ..

theorem toWord_le_of_nonneg {w : ℕ} {x : ℤ} (h : 0 ≤ x) : (toWord w x : ℤ) ≤ x := by
  obtain ⟨n, rfl⟩ := eq_ofNat_of_zero_le h
  exact_mod_cast toWord_le w n

theorem toWord_neg (hpos : 0 < x) (hx : x ≤ 2 ^ w) : toWord w (-(x : ℤ)) = 2 ^ w - x := by
  have hmod : -(x : ℤ) % 2 ^ w = ((2 ^ w - x : ℕ) : ℤ) := by
    have hcast : ((2 ^ w - x : ℕ) : ℤ) = -(x : ℤ) + 2 ^ w := by
      rw [Nat.cast_sub hx]
      push_cast
      omega
    rw [hcast, ← add_emod_right (-(x : ℤ)) (2 ^ w)]
    apply emod_eq_of_lt
    · rw [← hcast]
      exact natCast_nonneg _
    · omega
  rw [toWord, hmod, toNat_natCast]

theorem toInt_neg (hx : x ≤ 2 ^ 31) : toInt (-(x : ℤ)) = -(x : ℤ) := by
  rw [toInt]
  apply bmod_eq_of_le
  · omega
  · omega

end MachineWords
