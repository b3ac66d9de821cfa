import Mathlib.Logic.Basic

/-! Total correctness of computations that may stop with a fault.
`Returns x Q` says that `x` does not fault and that what it returns satisfies `Q`. -/
namespace TotalTriples

universe u v

variable {ε : Type u} {α β : Type v} {x : Except ε α} {f : α → Except ε β} {a : α}
  {P Q : α → Prop} {R : β → Prop}

def Returns (x : Except ε α) (Q : α → Prop) : Prop := ∃ a, x = .ok a ∧ Q a

theorem returns_ok (h : Q a) : Returns (.ok a : Except ε α) Q := ⟨a, rfl, h⟩

theorem Returns.mono (h : Returns x P) (himp : ∀ a, P a → Q a) : Returns x Q := by
  obtain ⟨a, hx, ha⟩ := h
  exact ⟨a, hx, himp a ha⟩

theorem Returns.bind (hx : Returns x P) (hf : ∀ a, P a → Returns (f a) R) :
    Returns (x >>= f) R := by
  obtain ⟨a, rfl, ha⟩ := hx
  exact hf a ha

theorem bind_ok_iff {b : β} : (x >>= f) = .ok b ↔ ∃ a, x = .ok a ∧ f a = .ok b := by
  cases x with
  | error e => exact iff_of_false nofun fun ⟨_, h, _⟩ => nomatch h
  | ok a => exact ⟨fun h => ⟨a, rfl, h⟩, fun ⟨_, h, hf⟩ => Except.ok.inj h ▸ hf⟩

theorem bind_of_eq (h : x = .ok a) : (x >>= f) = f a := by
  rw [h]
  rfl

theorem returns_ite {c : Prop} [Decidable c] {y : Except ε α} (hx : c → Returns x Q)
    (hy : ¬ c → Returns y Q) : Returns (if c then x else y) Q := by
  split
  case isTrue h => exact hx h
  case isFalse h => exact hy h

theorem returns_guard {c : Prop} [Decidable c] {a : α} (ha : Q a) (h : ¬ c → Returns x Q) :
    Returns (if c then .ok a else x) Q := returns_ite (fun _ => returns_ok ha) h

end TotalTriples
