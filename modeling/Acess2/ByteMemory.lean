import Mathlib.Tactic.Ring

/-! # Byte-addressed memory with little-endian words

A memory is a total map from addresses to bytes; whether an address may be touched is
decided by the model that uses it. Words are read and written a given number of bytes
at a time, so overlapping accesses of different widths keep their meaning. -/
namespace ByteMemory

open Function List Nat

abbrev Memory := ℕ → UInt8

/-- The little-endian number held by the `k` bytes from `a`. -/
def load (m : Memory) (a : ℕ) : ℕ → ℕ
  | 0 => 0
  | k + 1 => (m a).toNat + 256 * load m (a + 1) k

/-- Writing keeps the low `k` bytes of `v`, as a store of that width does. -/
def store (m : Memory) (a k v : ℕ) : Memory :=
  fun x => if a ≤ x ∧ x < a + k then UInt8.ofNat (v / 256 ^ (x - a)) else m x

def copyForward (m : Memory) (dst src : ℕ) : ℕ → Memory
  | 0 => m
  | n + 1 => copyForward (update m dst (m src)) (dst + 1) (src + 1) n

variable {a k v x dst n src : ℕ} {m : Memory} {xs : List (ℕ × ℕ)}

theorem load_congr {m' : Memory} (h : ∀ x, a ≤ x → x < a + k → m x = m' x) :
    load m a k = load m' a k := by
  induction k generalizing a with
  | zero => rfl
  | succ k ih =>
    have hfirst : m a = m' a := h a le_rfl (by omega)
    have hrest : load m (a + 1) k = load m' (a + 1) k := ih fun x hl hu => h x (by omega) (by omega)
    simp only [load, hfirst, hrest]

theorem store_inside (hl : a ≤ x) (hu : x < a + k) :
    store m a k v x = UInt8.ofNat (v / 256 ^ (x - a)) := by
  simp [store, hl, hu]

theorem store_outside (h : x < a ∨ a + k ≤ x) : store m a k v x = m x := by
  have hn : ¬ (a ≤ x ∧ x < a + k) := by omega
  simp [store, hn]

theorem load_of_bytes
    (h : ∀ i, i < k → m (a + i) = UInt8.ofNat (v / 256 ^ i)) : load m a k = v % 256 ^ k := by
  induction k generalizing a v with
  | zero => simp [load, Nat.mod_one]
  | succ k ih =>
    have hfirst : (m a).toNat = v % 256 := by
      have := h 0 (by omega)
      simp only [Nat.add_zero, pow_zero, Nat.div_one] at this
      simp [this]
    have hrest : load m (a + 1) k = v / 256 % 256 ^ k := by
      refine ih fun i hi => ?_
      have := h (i + 1) (by omega)
      rw [show a + 1 + i = a + (i + 1) by omega, this, pow_succ', Nat.div_div_eq_div_mul]
    simp only [load, hfirst, hrest]
    rw [pow_succ', Nat.mod_mul]

theorem load_store_same (m : Memory) (a k v : ℕ) : load (store m a k v) a k = v % 256 ^ k := by
  refine load_of_bytes fun i hi => ?_
  rw [store_inside (by omega) (by omega), Nat.add_sub_cancel_left]

theorem load_store_eq (h : v < 256 ^ k) : load (store m a k v) a k = v := by
  rw [load_store_same, mod_eq_of_lt h]

theorem load_store_disjoint {b j : ℕ} (h : b + j ≤ a ∨ a + k ≤ b) :
    load (store m a k v) b j = load m b j :=
  load_congr fun x hl hu => store_outside (by omega)

/-- Byte ranges `(start, length)` in ascending order, none reaching into a later one. -/
def Apart (xs : List (ℕ × ℕ)) : Prop := xs.Pairwise fun x y => x.1 + x.2 ≤ y.1

theorem apart_cons {x : ℕ × ℕ} :
    Apart (x :: xs) ↔ (∀ y ∈ xs, x.1 + x.2 ≤ y.1) ∧ Apart xs := pairwise_cons

theorem apart_single (x : ℕ × ℕ) : Apart [x] := pairwise_singleton _ _

theorem apart_cons_cons {x y : ℕ × ℕ} (h : x.1 + x.2 ≤ y.1)
    (hs : Apart (y :: xs)) : Apart (x :: y :: xs) := by
  refine pairwise_cons.mpr ⟨fun z hz => ?_, hs⟩
  rcases mem_cons.mp hz with rfl | hz
  · exact h
  · have hyz := rel_of_pairwise_cons hs hz
    omega

theorem copyForward_outside (h : x < dst ∨ dst + n ≤ x) : copyForward m dst src n x = m x := by
  induction n generalizing m dst src with
  | zero => rfl
  | succ n ih =>
    rw [copyForward, ih (by omega), update_of_ne (by omega)]

theorem copyForward_inside {i : ℕ} (hov : dst ≤ src ∨ src + n ≤ dst)
    (hi : i < n) : copyForward m dst src n (dst + i) = m (src + i) := by
  induction n generalizing m dst src i with
  | zero => omega
  | succ n ih =>
    rw [copyForward]
    cases i with
    | zero =>
      simp only [add_zero]
      rw [copyForward_outside (by omega), update_self]
    | succ i =>
      have hstep : copyForward (update m dst (m src)) (dst + 1) (src + 1) n
          (dst + 1 + i) = update m dst (m src) (src + 1 + i) :=
        ih (by omega) (by omega)
      rw [show dst + (i + 1) = dst + 1 + i by omega, hstep,
        show src + 1 + i = src + (i + 1) by omega, update_of_ne (by omega)]

end ByteMemory
