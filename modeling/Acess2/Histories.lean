import Mathlib.Data.List.Basic

/-! Logs that grow at the end, and what their entries say about those before them. -/
namespace Histories

open List

variable {α : Type*} {p stop : α → Prop} {P : List α → α → Prop} {log : List α} {x : α}

/-- Some entry meets `p`, and none behind it meets `stop`. -/
def Since (p stop : α → Prop) (log : List α) : Prop :=
  ∃ before e later, log = before ++ e :: later ∧ p e ∧ ∀ y ∈ later, ¬ stop y

theorem since_last (hx : p x) : Since p stop (log ++ [x]) :=
  ⟨log, x, [], rfl, hx, fun _ hy => (by cases hy)⟩

theorem Since.snoc (h : Since p stop log) (hx : ¬ stop x) : Since p stop (log ++ [x]) := by
  obtain ⟨before, e, later, rfl, he, hlater⟩ := h
  exact ⟨before, e, later ++ [x], by simp, he,
    forall_mem_append.mpr ⟨hlater, forall_mem_singleton.mpr hx⟩⟩

def Fits (P : List α → α → Prop) (log : List α) : Prop :=
  ∀ before e later, log = before ++ e :: later → P before e

theorem fits_nil : Fits P [] := by
  intro before e later hlog
  simp at hlog

theorem Fits.snoc (h : Fits P log) (hx : P log x) : Fits P (log ++ [x]) := by
  intro before e later hlog
  rcases eq_nil_or_concat later with rfl | ⟨later', last, rfl⟩
  · obtain ⟨rfl, hlast⟩ := append_inj' hlog rfl
    exact singleton_inj.mp hlast ▸ hx
  · rw [concat_eq_append, ← cons_append, ← append_assoc] at hlog
    exact h before e later' (append_inj_left' hlog rfl)

end Histories
