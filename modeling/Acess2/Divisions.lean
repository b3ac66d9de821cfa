import Mathlib.Algebra.Order.Ring.Int

/-! Division of 64-bit words without an instruction for it: `__divmod64` (`arch/helpers.h`), and
the functions of the x86 and ARMv7 kernels in front of it. -/
namespace Divisions

open Nat

/-- `while(N/2>=D&&add)`: the divisor is doubled, with the weight of its quotient bit. After 64
rounds `add` is zero. -/
def double (n : ℕ) : ℕ → ℕ → ℕ → ℕ × ℕ
  | 0, d, add => (d, add)
  | left + 1, d, add =>
    if n / 2 ≥ d ∧ add ≠ 0 then double n left (d * 2 % 2 ^ 64) (add * 2 % 2 ^ 64) else (d, add)

/-- `while(add>0)`, which halves `add` -/
def subtract : ℕ → ℕ → ℕ → ℕ → ℕ → ℕ × ℕ
  | 0, n, _, _, ret => (ret, n)
  | left + 1, n, d, add, ret =>
    if add = 0 then (ret, n)
    else if n ≥ d then subtract left (n - d) (d / 2) (add / 2) ((ret + add) % 2 ^ 64)
    else subtract left n (d / 2) (add / 2) ret

/-- `__divmod64`: the quotient and `*Rem` -/
def divmod64 (n d : ℕ) : ℕ × ℕ :=
  let (d, add) := double n 64 d 1
  subtract 64 n d add 0

/-- `div`, which faults on a quotient of more than 32 bits -/
def divl (num div : ℕ) : Option (ℕ × ℕ) :=
  if num / div < 2 ^ 32 then some (num / div, num % div) else none

namespace X86

def divMod64U (num div : ℕ) : Option (ℕ × ℕ) :=
  if div = 16 then some (num >>> 4, num &&& 15)
  else if div < 0x100000000 ∧ num < 0xFFFFFFFF * div % 2 ^ 64 then divl num div
  else some (divmod64 num div)

def shifts : List ℕ := [1, 2, 3, 4, 5, 10, 11, 12]

def udivdi3 (num den : ℕ) : ℕ :=
  if den = 0 then 2 ^ 64 - 1
  else if num ≤ 0xFFFFFFFF ∧ den ≤ 0xFFFFFFFF then num / den
  else if den = 1 then num
  else match shifts.find? (den = 2 ^ ·) with
    | some k => num >>> k
    | none =>
      if num < den then 0
      else if num < den * 2 % 2 ^ 64 then 1
      else if num = den * 2 % 2 ^ 64 then 2
      else (divmod64 num den).1

def umoddi3 (num den : ℕ) : ℕ :=
  if den = 0 then 2 ^ 64 - 1
  else if den = 1 then 0
  else match shifts.find? (den = 2 ^ ·) with
    | some k => num &&& (2 ^ k - 1)
    | none =>
      if num >>> 32 = 0 ∧ den >>> 32 = 0 then num % den
      else (divmod64 num den).2

end X86

/-- `DivMod64U` of ARMv7; `__divmod32_asm` is exact. -/
def Armv7.divMod64U (num den : ℕ) : ℕ × ℕ :=
  if den = 0 then (0, 0)
  else if num < den then (0, num)
  else if num = 0 then (0, 0)
  else if den = 1 then (num, 0)
  else match [1, 4, 5, 12].find? (den = 2 ^ ·) with
    | some k => (num >>> k, num &&& (2 ^ k - 1))
    | none =>
      if den >>> 32 = 0 ∧ num >>> 32 = 0 then (num / den, num % den)
      else divmod64 num den

variable {n d : ℕ}

theorem halved (d k : ℕ) : d * 2 ^ (k + 1) / 2 = d * 2 ^ k ∧ 2 ^ (k + 1) / 2 = 2 ^ k := by
  rw [Nat.pow_succ, ← Nat.mul_assoc]
  exact ⟨Nat.mul_div_cancel _ (by omega), Nat.mul_div_cancel _ (by omega)⟩

theorem subtract_eq {k left ret : ℕ} (hd : 0 < d) (hleft : k ≤ left) (hlt : n < d * 2 ^ k)
    (hret : ret + n / d < 2 ^ 64) :
    subtract left n (d * 2 ^ k / 2) (2 ^ k / 2) ret = (ret + n / d, n % d) := by
  induction k generalizing left n ret with
  | zero =>
    rw [Nat.pow_zero, Nat.mul_one] at hlt
    rw [div_eq_of_lt hlt, mod_eq_of_lt hlt]
    cases left <;> simp [subtract]
  | succ k ih =>
    obtain ⟨left, rfl⟩ : ∃ l, left = l + 1 := ⟨left - 1, by omega⟩
    rw [(halved d k).1, (halved d k).2, subtract, if_neg (Nat.ne_of_gt (Nat.two_pow_pos k))]
    rw [Nat.pow_succ, ← Nat.mul_assoc] at hlt
    split
    case isTrue hge =>
      have hbit : 2 ^ k ≤ n / d := by rwa [le_div_iff_mul_le hd, Nat.mul_comm]
      rw [mod_eq_of_lt (by omega), ih (by omega) (by omega), sub_mul_div, sub_mul_mod hge]
      · congr 1
        omega
      · rw [sub_mul_div]
        omega
    case isFalse hlt => exact ih (by omega) (by omega) hret

/-- The doubling ends in time: what is doubled is not more than half of `N`. -/
theorem double_eq {left j : ℕ} (hd : 0 < d) (hn : n < 2 ^ 64) (hj : j + left = 64)
    (hfits : j = 0 ∨ d * 2 ^ j ≤ n) :
    ∃ k < 64, double n left (d * 2 ^ j) (2 ^ j) = (d * 2 ^ k, 2 ^ k) ∧ n < d * 2 ^ (k + 1) := by
  have hle (i : ℕ) : 2 ^ i ≤ d * 2 ^ i := Nat.le_mul_of_pos_left _ hd
  induction left generalizing j with
  | zero =>
    have hle := hle 64
    obtain rfl : j = 64 := by omega
    omega
  | succ left ih =>
    rw [double]
    split
    case isTrue hhalf =>
      have hle := hle j
      have hfit : d * 2 ^ j * 2 ≤ n := by omega
      rw [mod_eq_of_lt (by omega), mod_eq_of_lt (by omega), Nat.mul_assoc, ← Nat.pow_succ]
      exact ih (by omega) (.inr (by rwa [Nat.pow_succ, ← Nat.mul_assoc]))
    case isFalse hhalf =>
      have hpos := Nat.two_pow_pos j
      refine ⟨j, by omega, rfl, ?_⟩
      rw [Nat.pow_succ, ← Nat.mul_assoc]
      omega

theorem divmod64_eq (hn : n < 2 ^ 64) (hd : 0 < d) : divmod64 n d = (n / d, n % d) := by
  obtain ⟨k, hk, hdouble, hlt⟩ := double_eq hd hn (rfl : 0 + 64 = 64) (.inl rfl)
  rw [Nat.pow_zero, Nat.mul_one] at hdouble
  have hret := div_le_self n d
  have hsubtract : subtract 64 n _ _ 0 = _ := subtract_eq hd hk hlt (by omega)
  rw [(halved d k).1, (halved d k).2, Nat.zero_add] at hsubtract
  rw [divmod64, hdouble]
  exact hsubtract

theorem shift_eq {shifts : List ℕ} {k : ℕ} (h : shifts.find? (d = 2 ^ ·) = some k) (n : ℕ) :
    n >>> k = n / d ∧ n &&& (2 ^ k - 1) = n % d := by
  obtain rfl : d = 2 ^ k := by simpa using List.find?_some h
  exact ⟨shiftRight_eq_div_pow n k, and_two_pow_sub_one_eq_mod n k⟩

/-- The products that choose the way do not wrap where it matters. -/
theorem divisions_exact (hn : n < 2 ^ 64) (hd : 0 < d) (hd' : d < 2 ^ 64) :
    divmod64 n d = (n / d, n % d) ∧ X86.divMod64U n d = some (n / d, n % d) ∧
      X86.udivdi3 n d = n / d ∧ X86.umoddi3 n d = n % d ∧ Armv7.divMod64U n d = (n / d, n % d) := by
  have hdiv := divmod64_eq hn hd
  refine ⟨hdiv, ?_, ?_, ?_, ?_⟩
  · unfold X86.divMod64U divl
    split_ifs with h16 hsmall hfits
    · have h := shift_eq (show [4].find? (d = 2 ^ ·) = some 4 by simp [h16]) n
      exact congrArg some (Prod.ext h.1 h.2)
    · rfl
    · refine absurd ?_ hfits
      rw [mod_eq_of_lt (by omega)] at hsmall
      rw [div_lt_iff_lt_mul hd]
      omega
    · rw [hdiv]
  · rw [X86.udivdi3, if_neg (Nat.ne_of_gt hd)]
    split
    case isTrue => rfl
    split
    case isTrue hone => rw [hone, Nat.div_one]
    split
    case h_1 k hk => exact (shift_eq hk n).1
    split_ifs with hlt htwo heq
    · exact (div_eq_of_lt hlt).symm
    · have hle : d * 2 % 2 ^ 64 ≤ d * 2 := mod_le ..
      exact (Nat.div_eq_of_lt_le (by omega) (by omega)).symm
    · rw [heq, mod_eq_of_lt (by omega), Nat.mul_div_cancel_left _ hd]
    · rw [hdiv]
  · rw [X86.umoddi3, if_neg (Nat.ne_of_gt hd)]
    split
    case isTrue hone => rw [hone, mod_one]
    split
    case h_1 k hk => exact (shift_eq hk n).2
    split_ifs
    · rfl
    · rw [hdiv]
  · rw [Armv7.divMod64U, if_neg (Nat.ne_of_gt hd)]
    split
    case isTrue hlt => rw [div_eq_of_lt hlt, mod_eq_of_lt hlt]
    rw [if_neg (by omega)]
    split
    case isTrue hone => rw [hone, Nat.div_one, mod_one]
    split
    case h_1 k hk => exact Prod.ext (shift_eq hk n).1 (shift_eq hk n).2
    split_ifs
    · rfl
    · exact hdiv

theorem largest_divided : X86.udivdi3 (2 ^ 64 - 1) (2 ^ 63) = (2 ^ 64 - 1) / 2 ^ 63 :=
  (divisions_exact (by decide) (by decide) (by decide)).2.2.1

end Divisions
