import Mathlib.Algebra.Order.Ring.Int

/-! Addresses of the IP stack (`main.c` of the module): bytes behind a pointer, as many as the
type of the address has. -/
namespace IpAddresses

open Nat

abbrev Address := ℕ → UInt8

def getAddressSize (type : ℤ) : ℕ :=
  if type = -1 then 16 else if type = 4 then 4 else if type = 6 then 16 else 0

def checkBits (type bits : ℤ) : ℕ :=
  if bits < 0 ∨ getAddressSize type * 8 < bits then getAddressSize type * 8 else bits.toNat

def maskOf (bits : ℕ) : UInt8 := UInt8.ofNat (0xFF <<< (8 - bits))

def compareAddress (type : ℤ) (address1 address2 : Address) (bits : ℤ) : Bool :=
  let n := checkBits type bits
  if n = 0 then true
  else if ¬ ∀ i < n / 8, address1 i = address2 i then false
  else if n % 8 = 0 then true
  else address1 (n / 8) &&& maskOf (n % 8) = address2 (n / 8) &&& maskOf (n % 8)

def bitAt (address : Address) (i : ℕ) : Bool := (address (i / 8)).toNat.testBit (7 - i % 8)

variable {type : ℤ} {bits : ℕ} {x y : UInt8}

theorem checkBits_of_range {bits : ℤ} (h0 : 0 ≤ bits) (h1 : bits ≤ getAddressSize type * 8) :
    checkBits type bits = bits.toNat := by
  simp only [checkBits]
  rw [if_neg (by omega)]

theorem maskOf_testBit (h : bits ≤ 8) (i : ℕ) :
    (maskOf bits).toNat.testBit i = decide (8 - bits ≤ i ∧ i < 8) := by
  have hmask : (maskOf bits).toNat = (2 ^ 8 - 1) <<< (8 - bits) % 2 ^ 8 := rfl
  rw [hmask, testBit_mod_two_pow, testBit_shiftLeft, testBit_two_pow_sub_one, Bool.eq_iff_iff]
  simp only [Bool.and_eq_true, decide_eq_true_eq]
  omega

theorem byte_ext (h : ∀ i < 8, x.toNat.testBit i = y.toNat.testBit i) : x = y := by
  apply UInt8.toNat_inj.mp
  apply eq_of_testBit_eq
  intro i
  by_cases hi : i < 8
  · exact h i hi
  · have hpow : 2 ^ 8 ≤ 2 ^ i := Nat.pow_le_pow_right (by decide) (by omega)
    rw [testBit_lt_two_pow (x.toNat_lt.trans_le hpow),
      testBit_lt_two_pow (y.toNat_lt.trans_le hpow)]

theorem masked_eq_iff (h : bits ≤ 8) : x &&& maskOf bits = y &&& maskOf bits ↔
      ∀ i < bits, x.toNat.testBit (7 - i) = y.toNat.testBit (7 - i) := by
  have hbit : ∀ (z : UInt8) i, (z &&& maskOf bits).toNat.testBit i =
      (z.toNat.testBit i && decide (8 - bits ≤ i ∧ i < 8)) := by
    intro z i
    rw [UInt8.toNat_and, testBit_and, maskOf_testBit h]
  constructor
  · intro heq i hi
    have hin : 8 - bits ≤ 7 - i ∧ 7 - i < 8 := by omega
    have hx := hbit x (7 - i)
    rw [heq, hbit] at hx
    simpa [hin] using hx.symm
  · intro heq
    apply byte_ext
    intro i hi
    rw [hbit, hbit]
    by_cases hin : 8 - bits ≤ i
    · have hsame := heq (7 - i) (by omega)
      rw [show 7 - (7 - i) = i by omega] at hsame
      rw [hsame]
    · simp [hin]

theorem masked_whole : x = y ↔ ∀ i < 8, x.toNat.testBit (7 - i) = y.toNat.testBit (7 - i) := by
  rw [← masked_eq_iff le_rfl]
  have hall : ∀ z : UInt8, z &&& maskOf 8 = z := fun z => by
    apply UInt8.toBitVec_inj.mp
    exact BitVec.and_allOnes
  rw [hall, hall]

theorem bits_eq_iff (a b : Address) (n : ℕ) : (∀ i < n, bitAt a i = bitAt b i) ↔
      (∀ i < n / 8, a i = b i) ∧
        ∀ i < n % 8, (a (n / 8)).toNat.testBit (7 - i) = (b (n / 8)).toNat.testBit (7 - i) := by
  constructor
  · intro h
    refine ⟨fun i hi => masked_whole.mpr fun j hj => ?_, fun i hi => ?_⟩
    · have hbit := h (8 * i + j) (by omega)
      simpa [bitAt, mul_add_div, mul_add_mod, div_eq_of_lt hj, mod_eq_of_lt hj] using hbit
    · have hlt : i < 8 := hi.trans (mod_lt _ (by decide))
      have hbit := h (8 * (n / 8) + i) (by omega)
      simpa [bitAt, mul_add_div, mul_add_mod, div_eq_of_lt hlt, mod_eq_of_lt hlt] using hbit
  · rintro ⟨hbytes, hrest⟩ i hi
    simp only [bitAt]
    by_cases hin : i / 8 < n / 8
    · rw [hbytes _ hin]
    · rw [show i / 8 = n / 8 by omega]
      exact hrest (i % 8) (by omega)

theorem compareAddress_iff (type : ℤ) (a b : Address) (bits : ℤ) :
    compareAddress type a b bits = true ↔ ∀ i < checkBits type bits, bitAt a i = bitAt b i := by
  rw [bits_eq_iff, compareAddress]
  generalize checkBits type bits = n
  have hlt : n % 8 ≤ 8 := (mod_lt _ (by decide)).le
  by_cases hbytes : ∀ i < n / 8, a i = b i
  · have hsame : (∀ i < n / 8, a i = b i) = True := eq_true hbytes
    simp only [hsame, not_true_eq_false, if_false, true_and]
    split_ifs with hn hmod
    · simp [hn]
    · simp [hmod]
    · rw [decide_eq_true_iff, masked_eq_iff hlt]
  · have hn : n ≠ 0 := by
      rintro rfl
      exact hbytes (by simp)
    simp [hn, hbytes]

theorem compareAddress_all {a b : Address} :
    compareAddress type a b (-1) = true ↔ ∀ i < getAddressSize type, a i = b i := by
  have hbits : checkBits type (-1) = getAddressSize type * 8 := by simp [checkBits]
  rw [compareAddress_iff, bits_eq_iff, hbits, Nat.mul_div_cancel _ (by decide), Nat.mul_mod_left]
  exact ⟨fun h => h.1, fun h => ⟨h, fun i hi => absurd hi (not_lt_zero i)⟩⟩

end IpAddresses
