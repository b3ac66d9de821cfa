import Acess2.Libc

/-! Numbers in strings (`strtoi.c`, which the kernel includes from the C library), on strings of
bytes without the null character. The results are a value and what `*end` points at. -/
namespace Strtoi

open Libc List Nat

/-- The functions of `ctype.h` in use, of the kernel or of the C library -/
structure Ctype where
  isspace : UInt8 → Bool
  isdigit : UInt8 → Bool
  isxdigit : UInt8 → Bool

def kernelIsdigit (c : UInt8) : Bool := 48 ≤ c ∧ c ≤ 57

def kernelCtype : Ctype where
  isspace c := c = 32 ∨ c = 9 ∨ c = 11 ∨ c = 10 ∨ c = 13
  isdigit := kernelIsdigit
  isxdigit c := kernelIsdigit c ∨ (97 ≤ c ∧ c ≤ 102) ∨ (65 ≤ c ∧ c ≤ 70)

def ullongMax : ℕ := 2 ^ 64 - 1
def llongMax : ℤ := 2 ^ 63 - 1
def llongMin : ℤ := -2 ^ 63

def digitOf (base : ℕ) (c : UInt8) : Option ℕ :=
  if base ≤ 10 then
    if 48 ≤ c.toNat ∧ c.toNat ≤ 48 + base - 1 then some (c.toNat - 48) else none
  else if 97 ≤ c.toNat ∧ c.toNat ≤ 97 + base - 10 - 1 then some (c.toNat - 97 + 10)
  else if 65 ≤ c.toNat ∧ c.toNat ≤ 65 + base - 10 - 1 then some (c.toNat - 65 + 10)
  else if 48 ≤ c.toNat ∧ c.toNat ≤ 57 then some (c.toNat - 48)
  else none

def strtoullLoop (base : ℕ) : ℕ → List UInt8 → ℕ × List UInt8
  | ret, [] => (ret, [])
  | ret, c :: str =>
    match digitOf base c with
    | none => (ret, c :: str)
    | some next =>
      let maxBefore := ullongMax / base
      let spaceAbove := ullongMax - maxBefore * base
      if ret = ullongMax then strtoullLoop base ret str
      else if ret ≥ maxBefore ∧ ((ret - maxBefore) * base + next) % 2 ^ 64 > spaceAbove then
        strtoullLoop base ullongMax str
      else strtoullLoop base ((ret * base + next) % 2 ^ 64) str

def strtoull (t : Ctype) (str : List UInt8) (base : ℕ) : ℕ × List UInt8 :=
  if base > 36 ∨ base = 1 then (0, str)
  else
    match str.dropWhile t.isspace with
    | c :: x :: d :: str =>
      if (base = 0 ∨ base = 16) ∧ c = 48 ∧ (x = 120 ∨ x = 88) ∧ t.isxdigit d then
        strtoullLoop 16 0 (d :: str)
      else if base = 0 ∧ c = 48 then strtoullLoop 8 0 (x :: d :: str)
      else strtoullLoop (if base = 0 then 10 else base) 0 (c :: x :: d :: str)
    | c :: str =>
      if base = 0 ∧ c = 48 then strtoullLoop 8 0 str
      else strtoullLoop (if base = 0 then 10 else base) 0 (c :: str)
    | [] => strtoullLoop (if base = 0 then 10 else base) 0 []

/-- The number behind the sign is limited to what a `long long` has. -/
def withSign (neg : Bool) (ret : ℕ) : ℤ :=
  if neg then
    if (ret + 2 ^ 63) % 2 ^ 64 < ret then llongMin else -ret
  else if (ret : ℤ) > llongMax then llongMax else ret

def strtoll (t : Ctype) (str : List UInt8) (base : ℕ) : ℤ × List UInt8 :=
  match str.dropWhile t.isspace with
  | [] => (withSign false (strtoull t [] base).1, (strtoull t [] base).2)
  | c :: str =>
    if c = 45 ∨ c = 43 then
      if (str.head?.elim false t.isdigit) = false then (0, c :: str)
      else (withSign (c = 45) (strtoull t str base).1, (strtoull t str base).2)
    else (withSign false (strtoull t (c :: str) base).1, (strtoull t (c :: str) base).2)

def strtol (t : Ctype) (longWidth : ℕ) (str : List UInt8) (base : ℕ) : ℤ × List UInt8 :=
  let (tmp, rest) := strtoll t str base
  (if tmp > 2 ^ (longWidth - 1) - 1 then 2 ^ (longWidth - 1) - 1
    else if tmp < -2 ^ (longWidth - 1) then -2 ^ (longWidth - 1)
    else tmp, rest)

variable {c : UInt8} {s : List UInt8} {ret n : ℕ}

theorem ucDigit_digit : ∀ d < 10, 48 ≤ (ucDigit d).toNat ∧ (ucDigit d).toNat ≤ 57 := by decide

theorem digitOf_ucDigit : ∀ d < 10, digitOf 10 (ucDigit d) = some d := by decide

theorem strtoullLoop_digit {d : ℕ} (hd : d < 10) (hret : ret * 10 + d < ullongMax)
    (str : List UInt8) :
    strtoullLoop 10 ret (ucDigit d :: str) = strtoullLoop 10 (ret * 10 + d) str := by
  rw [strtoullLoop, digitOf_ucDigit d hd]
  have hmax : ullongMax = 18446744073709551615 := rfl
  dsimp only
  rw [if_neg (by omega), if_neg (by omega), mod_eq_of_lt (by omega)]

theorem strtoullLoop_digits (size : ℕ) (hn : n < ullongMax) (hsize : n < 10 ^ (size + 1))
    (str : List UInt8) :
    strtoullLoop 10 0 ((itoaDigits 10 size n).reverse ++ str) = strtoullLoop 10 n str := by
  induction size generalizing n str with
  | zero =>
    have hd : n < 10 := by simpa using hsize
    rw [itoaDigits, reverse_singleton, singleton_append, strtoullLoop_digit hd (by omega)]
    congr 1
    omega
  | succ size ih =>
    rw [itoaDigits]
    split_ifs with hlong
    · have hdiv : n / 10 < 10 ^ (size + 1) := by
        rw [div_lt_iff_lt_mul (by omega), ← pow_succ]
        exact hsize
      rw [reverse_cons, append_assoc, ih (by omega) hdiv, singleton_append,
        strtoullLoop_digit (mod_lt _ (by omega)) (by omega)]
      congr 1
      omega
    · rw [reverse_singleton, singleton_append, strtoullLoop_digit (by omega) (by omega)]
      congr 1
      omega

theorem itoaDigits_digit (size : ℕ) (hsize : n < 10 ^ (size + 1)) :
    ∀ c ∈ itoaDigits 10 size n, 48 ≤ c.toNat ∧ c.toNat ≤ 57 := by
  induction size generalizing n with
  | zero =>
    intro c hc
    rw [itoaDigits, mem_singleton] at hc
    rw [hc]
    exact ucDigit_digit n (by simpa using hsize)
  | succ size ih =>
    intro c hc
    rw [itoaDigits] at hc
    split_ifs at hc with hlong
    · rcases mem_cons.mp hc with rfl | hc
      · exact ucDigit_digit _ (mod_lt _ (by omega))
      · apply ih _ c hc
        rw [div_lt_iff_lt_mul (by omega), ← pow_succ]
        exact hsize
    · rw [mem_singleton.mp hc]
      exact ucDigit_digit n (by omega)

theorem itoaDigits_ne_nil (base size n : ℕ) : itoaDigits base size n ≠ [] := by
  cases size with
  | zero => simp [itoaDigits]
  | succ size =>
    rw [itoaDigits]
    split_ifs <;> simp

theorem decimal_eq (n : ℕ) : decimal n = (itoaDigits 10 64 n).reverse := by
  simp [decimal, itoa]

theorem decimal_ne_nil (n : ℕ) : decimal n ≠ [] := by
  rw [decimal_eq]
  exact fun h => itoaDigits_ne_nil 10 64 n (reverse_eq_nil_iff.mp h)

theorem decimal_digit (hn : n < 2 ^ 64) : ∀ c ∈ decimal n, 48 ≤ c.toNat ∧ c.toNat ≤ 57 := by
  intro c hc
  rw [decimal_eq, mem_reverse] at hc
  exact itoaDigits_digit 64 (by omega) c hc

theorem strtoull_ten (t : Ctype) (str : List UInt8) :
    strtoull t str 10 = strtoullLoop 10 0 (str.dropWhile t.isspace) := by
  rw [strtoull, if_neg (by omega)]
  cases h : str.dropWhile t.isspace with
  | nil => rfl
  | cons c rest => match rest with
    | [] | [_] | _ :: _ :: _ => simp

theorem strtol_decimal {longWidth : ℕ} (hwidth : 32 ≤ longWidth) (hn : n < 2 ^ 31) :
    strtol kernelCtype longWidth (decimal n) 10 = ((n : ℤ), []) := by
  obtain ⟨c, rest, hcons⟩ := exists_cons_of_ne_nil (decimal_ne_nil n)
  obtain ⟨hlow, hhigh⟩ := decimal_digit (n := n) (by omega) c (by simp [hcons])
  have hchar : ∀ d : UInt8, d.toNat < 48 → c ≠ d := by
    rintro d hd rfl
    omega
  have hspace : kernelCtype.isspace c = false := by
    simp [kernelCtype, hchar]
  have hloop : strtoull kernelCtype (c :: rest) 10 = (n, []) := by
    rw [strtoull_ten, dropWhile_cons_of_neg (by simp [hspace]), ← hcons, decimal_eq]
    have hread := strtoullLoop_digits 64 (n := n) (by rw [ullongMax]; omega) (by omega) []
    rwa [append_nil] at hread
  have hlong : strtoll kernelCtype (decimal n) 10 = ((n : ℤ), []) := by
    rw [hcons, strtoll, dropWhile_cons_of_neg (by simp [hspace])]
    dsimp only
    rw [if_neg (by simp [hchar]), hloop, withSign, llongMax]
    simp
    omega
  have hmax : (2 : ℤ) ^ 31 ≤ 2 ^ (longWidth - 1) := pow_le_pow_right₀ (by omega) (by omega)
  rw [strtol, hlong]
  dsimp only
  rw [if_neg (by omega), if_neg (by omega)]

theorem strtol_eq_zero {t : Ctype} {longWidth base : ℕ} (h : (strtoll t s base).1 = 0) :
    (strtol t longWidth s base).1 = 0 := by
  have hpos : (0 : ℤ) < 2 ^ (longWidth - 1) := pow_pos (by omega) _
  rw [strtol]
  dsimp only
  rw [h, if_neg (by omega), if_neg (by omega)]

end Strtoi
