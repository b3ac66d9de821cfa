import Mathlib.Logic.Basic

/-! # Partial correctness of computations that may fault

A faulting computation is an `Option`; `Ensures x Q` says that whatever `x` returns
satisfies `Q`, and nothing about the runs that fault. -/
namespace PartialTriples

variable {α β : Type*}

def Ensures (x : Option α) (Q : α → Prop) : Prop := ∀ a, x = some a → Q a

variable {Q : α → Prop} {f : α → Option β} {x : Option α}

theorem ensures_some {a : α} (h : Q a) : Ensures (some a) Q := by
  rintro b ⟨⟩
  exact h

theorem ensures_none : Ensures none Q := by
  rintro b ⟨⟩

theorem ensures_bind {P : α → Prop} {Q : β → Prop}
    (hx : Ensures x P) (hf : ∀ a, P a → Ensures (f a) Q) : Ensures (x.bind f) Q := by
  intro b hb
  obtain ⟨a, ha, hfa⟩ := Option.bind_eq_some_iff.mp hb
  exact hf a (hx a ha) b hfa

theorem ensures_bind_any {Q : β → Prop} (hf : ∀ a, Ensures (f a) Q) : Ensures (x.bind f) Q :=
  ensures_bind (fun _ _ => trivial) fun a _ => hf a

theorem ensures_ite {c : Prop} [Decidable c] {y : Option α}
    (hx : Ensures x Q) (hy : Ensures y Q) : Ensures (if c then x else y) Q := by
  split
  · exact hx
  · exact hy

end PartialTriples
