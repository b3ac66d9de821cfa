import Mathlib.Order.PiLex
import Mathlib.Algebra.Order.Ring.Int

/-! Functions of the kernel's `libc.c` on strings, which are lists of bytes without the null
character. -/
namespace Libc

open List

abbrev CStr := { s : List UInt8 // 0 ∉ s }

variable (signedChar : Bool)

/-- The value of a `char`, which has a sign on some machines -/
def charValue (c : UInt8) : ℤ := if signedChar then Int.bmod c.toNat 256 else c.toNat

def firstChar : List UInt8 → ℤ
  | [] => 0
  | c :: _ => charValue signedChar c

def strcmp : List UInt8 → List UInt8 → ℤ
  | [], str2 => 0 - firstChar signedChar str2
  | c :: _, [] => charValue signedChar c - 0
  | c :: str1, d :: str2 =>
    if c = d then strcmp str1 str2 else charValue signedChar c - charValue signedChar d

def strncmp : List UInt8 → List UInt8 → ℕ → ℤ
  | _, _, 0 => 0
  | c :: str1, d :: str2, num + 1 =>
    if num ≠ 0 ∧ c = d then strncmp str1 str2 num
    else charValue signedChar c - charValue signedChar d
  | str1, str2, _ + 1 => firstChar signedChar str1 - firstChar signedChar str2

def ucDigits : List UInt8 :=
  [48, 49, 50, 51, 52, 53, 54, 55, 56, 57, 65, 66, 67, 68, 69, 70]

def ucDigit (d : ℕ) : UInt8 := ucDigits.getD d 0

/-- The digits that `itoa` puts into `tmpBuf`, the last one first -/
def itoaDigits (base : ℕ) : ℕ → ℕ → List UInt8
  | 0, num => [ucDigit num]
  | size + 1, num =>
    if num > base - 1 then ucDigit (num % base) :: itoaDigits base size (num / base)
    else [ucDigit num]

/-- `itoa` for a base from 2 to 16, as the string it leaves in `buf` -/
def itoa (num base minLength : ℕ) (pad : UInt8) : List UInt8 :=
  let tmpBuf := itoaDigits base 64 num
  List.replicate (minLength - tmpBuf.length) pad ++ tmpBuf.reverse

def decimal (num : ℕ) : List UInt8 := itoa num 10 0 32

variable {signedChar} {c d : UInt8} {s t : List UInt8}

theorem charValue_inj : charValue signedChar c = charValue signedChar d ↔ c = d := by
  refine ⟨fun h => ?_, fun h => by rw [h]⟩
  have hc := c.toNat_lt
  have hd := d.toNat_lt
  apply UInt8.toNat_inj.mp
  cases signedChar
  · simp only [charValue, Bool.false_eq_true, ↓reduceIte] at h
    omega
  · simp only [charValue, ↓reduceIte, Int.bmod_def] at h
    omega

theorem charValue_zero (signedChar : Bool) : charValue signedChar 0 = 0 := by
  cases signedChar <;> simp [charValue]

theorem charValue_ne_zero (hc : c ≠ 0) : charValue signedChar c ≠ 0 := by
  rw [← charValue_zero signedChar]
  exact fun h => hc (charValue_inj.mp h)

theorem lex_lt_iff {f g : ℕ → ℤ} : toLex f < toLex g ↔
    f 0 < g 0 ∨ (f 0 = g 0 ∧ toLex (fun i => f (i + 1)) < toLex fun i => g (i + 1)) := by
  constructor
  · rintro ⟨i, hsame, hlt⟩
    cases i with
    | zero => exact .inl hlt
    | succ i =>
      exact .inr ⟨hsame 0 (Nat.succ_pos i), i, fun j hj => hsame (j + 1) (Nat.succ_lt_succ hj), hlt⟩
  · rintro (hlt | ⟨heq, i, hsame, hlt⟩)
    · exact ⟨0, fun j hj => absurd hj (Nat.not_lt_zero j), hlt⟩
    · refine ⟨i + 1, fun j hj => ?_, hlt⟩
      cases j with
      | zero => exact heq
      | succ j => exact hsame j (Nat.lt_of_succ_lt_succ hj)

def padded (signedChar : Bool) (s : List UInt8) : Lex (ℕ → ℤ) :=
  toLex fun i => (s[i]?).elim 0 (charValue signedChar)

theorem padded_lt_iff : padded signedChar s < padded signedChar t ↔
    firstChar signedChar s < firstChar signedChar t ∨
      (firstChar signedChar s = firstChar signedChar t ∧
        padded signedChar s.tail < padded signedChar t.tail) := by
  have hfirst : ∀ s : List UInt8, (s[0]?).elim 0 (charValue signedChar) =
      firstChar signedChar s := by
    intro s
    cases s <;> rfl
  have htail : ∀ s : List UInt8, padded signedChar s.tail =
      toLex fun i => (s[i + 1]?).elim 0 (charValue signedChar) := by
    intro s
    cases s <;> rfl
  rw [padded, padded, lex_lt_iff, hfirst, hfirst, htail, htail]

theorem strcmp_neg_iff (hs : 0 ∉ s) (ht : 0 ∉ t) :
    strcmp signedChar s t < 0 ↔ padded signedChar s < padded signedChar t := by
  induction s generalizing t with
  | nil =>
    rw [padded_lt_iff, strcmp]
    cases t with
    | nil =>
      have hirrefl : ¬ padded signedChar [] < padded signedChar [] := lt_irrefl _
      simp [firstChar, hirrefl]
    | cons d t =>
      have hd : charValue signedChar d ≠ 0 := charValue_ne_zero fun h => ht (by simp [h])
      simp only [firstChar, tail_nil, tail_cons]
      omega
  | cons c s ih =>
    rw [padded_lt_iff]
    cases t with
    | nil =>
      have hc : charValue signedChar c ≠ 0 := charValue_ne_zero fun h => hs (by simp [h])
      simp only [strcmp, firstChar, tail_nil, tail_cons]
      omega
    | cons d t =>
      simp only [strcmp, firstChar, tail_cons]
      by_cases hcd : c = d
      · rw [if_pos hcd, ih (fun h => hs (by simp [h])) fun h => ht (by simp [h]), hcd]
        simp
      · have hne : charValue signedChar c ≠ charValue signedChar d := mt charValue_inj.mp hcd
        rw [if_neg hcd]
        omega

theorem strcmp_swap : strcmp signedChar t s = -strcmp signedChar s t := by
  induction s generalizing t with
  | nil => cases t <;> simp [strcmp, firstChar]
  | cons c s ih =>
    cases t with
    | nil => simp [strcmp, firstChar]
    | cons d t =>
      simp only [strcmp]
      by_cases hcd : c = d
      · rw [if_pos hcd.symm, if_pos hcd, ih]
      · rw [if_neg (Ne.symm hcd), if_neg hcd]
        omega

theorem strcmp_pos_iff (hs : 0 ∉ s) (ht : 0 ∉ t) :
    0 < strcmp signedChar s t ↔ padded signedChar t < padded signedChar s := by
  rw [← strcmp_neg_iff ht hs, strcmp_swap]
  omega

theorem strcmp_eq_zero_iff (hs : 0 ∉ s) (ht : 0 ∉ t) : strcmp signedChar s t = 0 ↔ s = t := by
  induction s generalizing t with
  | nil =>
    cases t with
    | nil => simp [strcmp, firstChar]
    | cons d t =>
      have hd : charValue signedChar d ≠ 0 := charValue_ne_zero fun h => ht (by simp [h])
      simp [strcmp, firstChar, hd]
  | cons c s ih =>
    cases t with
    | nil =>
      have hc : charValue signedChar c ≠ 0 := charValue_ne_zero fun h => hs (by simp [h])
      simp [strcmp, hc]
    | cons d t =>
      simp only [strcmp, cons.injEq]
      by_cases hcd : c = d
      · rw [if_pos hcd, ih (fun h => hs (by simp [h])) fun h => ht (by simp [h])]
        simp [hcd]
      · have hne : charValue signedChar c ≠ charValue signedChar d := mt charValue_inj.mp hcd
        simp [hcd, sub_eq_zero, hne]

end Libc
