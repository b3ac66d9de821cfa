import Mathlib.Data.Nat.ModEq

/-! Queues in the slots of a ring.
The entries stand one behind the other from some slot on; behind the last slot comes the first. -/
namespace RingBuffers

variable {β : Type*} {size p i j : ℕ} {mem mem' : ℕ → β} {xs ys : List β}

def Holds (size : ℕ) (mem : ℕ → β) (p : ℕ) (xs : List β) : Prop :=
  ∀ i x, xs[i]? = some x → mem ((p + i) % size) = x

theorem slot_ne (hi : i < size) (hj : j < size) (hne : i ≠ j) :
    (p + i) % size ≠ (p + j) % size := by
  intro heq
  have hmod : i ≡ j [MOD size] := Nat.ModEq.add_left_cancel' p heq
  exact hne (hmod.eq_of_lt_of_lt hi hj)

theorem slot_eq (hp : p < size) (hi : i ≤ size) :
    (p + i) % size = if p + i < size then p + i else p + i - size := by
  split_ifs with hlt
  · exact Nat.mod_eq_of_lt hlt
  · rw [Nat.mod_eq_sub_mod (not_lt.mp hlt), Nat.mod_eq_of_lt (by omega)]

theorem holds_nil : Holds size mem p [] := by
  intro i x hx
  simp at hx

theorem Holds.drop (h : Holds size mem p xs) (k : ℕ) :
    Holds size mem ((p + k) % size) (xs.drop k) := by
  intro i x hx
  rw [List.getElem?_drop] at hx
  rw [Nat.mod_add_mod, Nat.add_assoc]
  exact h (k + i) x hx

theorem Holds.append (h : Holds size mem p xs) (hnew : Holds size mem' ((p + xs.length) % size) ys)
    (hkeep : ∀ i < xs.length, mem' ((p + i) % size) = mem ((p + i) % size)) :
    Holds size mem' p (xs ++ ys) := by
  intro i x hx
  by_cases hi : i < xs.length
  · rw [List.getElem?_append_left hi] at hx
    rw [hkeep i hi]
    exact h i x hx
  · rw [List.getElem?_append_right (not_lt.mp hi)] at hx
    have hslot := hnew _ x hx
    rwa [Nat.mod_add_mod, Nat.add_assoc, Nat.add_sub_cancel' (not_lt.mp hi)] at hslot

end RingBuffers
