import Mathlib.Data.Option.Basic

/-! Runs of a system whose steps may fail, under a guard that every step meets in the state
it is taken in. -/
namespace GuardedRuns

open List Option

variable {σ α : Type*} (step : σ → α → Option σ) (guard : σ → α → Prop)

def run : σ → List α → Option σ
  | s, [] => some s
  | s, a :: as => (step s a).bind fun t => run t as

/-- Every step of the run meets the guard in the state it is taken in. -/
def Along : σ → List α → Prop
  | _, [] => True
  | s, a :: as => guard s a ∧ ∀ t, step s a = some t → Along t as

instance decidableAlong [∀ s, DecidablePred (guard s)] : ∀ s as, Decidable (Along step guard s as)
  | _, [] => inferInstanceAs (Decidable True)
  | s, a :: as =>
    match h : step s a with
    | none => decidable_of_iff (guard s a) (by simp [Along, h])
    | some t =>
      have := decidableAlong t as
      decidable_of_iff (guard s a ∧ Along step guard t as) (by simp [Along, h])

variable {step guard} {Inv : σ → Prop}

variable {as : List α} {s t : σ} {guard' : σ → α → Prop}

theorem along_of_forall (h : ∀ a ∈ as, ∀ t, guard t a) : Along step guard s as := by
  induction as generalizing s with
  | nil => trivial
  | cons a as ih =>
    exact ⟨h a (mem_cons_self ..) s, fun t _ => ih fun b hb => h b (mem_cons_of_mem _ hb)⟩

theorem along_cons {a : α} (hguard : guard s a) (hstep : step s a = some t)
    (hrest : Along step guard t as) : Along step guard s (a :: as) := by
  refine ⟨hguard, fun u hu => ?_⟩
  cases hstep.symm.trans hu
  exact hrest

theorem run_fold {γ : Type*} (note : γ → α → γ) {Inv : γ → σ → Prop}
    (hstep : ∀ g s a t, Inv g s → guard s a → step s a = some t → Inv (note g a) t) {g : γ}
    (hs : Inv g s) (hguard : Along step guard s as) (hrun : run step s as = some t) :
    Inv (as.foldl note g) t := by
  induction as generalizing g s with
  | nil =>
    obtain rfl : s = t := by simpa [run] using hrun
    exact hs
  | cons a as ih =>
    obtain ⟨u, hu, hrun⟩ := bind_eq_some_iff.mp hrun
    exact ih (hstep g s a u hs hguard.1 hu) (hguard.2 u hu) hrun

section

variable (hstep : ∀ s a t, Inv s → guard s a → step s a = some t → Inv t)
include hstep

theorem run_invariant
    (hs : Inv s) (hguard : Along step guard s as) (hrun : run step s as = some t) : Inv t :=
  run_fold (g := ()) (fun _ _ => ()) (fun _ => hstep) hs hguard hrun

omit hstep in
theorem run_preserves (hstep : ∀ s a t, Inv s → step s a = some t → Inv t)
    (hs : Inv s) (hrun : run step s as = some t) : Inv t :=
  run_invariant (fun s a t h (_ : True) => hstep s a t h) hs
    (along_of_forall fun _ _ _ => trivial) hrun

omit hstep in
theorem run_history {Inv : List α → σ → Prop} (before : List α)
    (hstep : ∀ as s a, Inv as s → guard s a → ∃ t, step s a = some t ∧ Inv (as ++ [a]) t)
    (hs : Inv before s) (hguard : Along step guard s as) :
    ∃ t, run step s as = some t ∧ Inv (before ++ as) t := by
  induction as generalizing before s with
  | nil => exact ⟨s, rfl, by simpa using hs⟩
  | cons a as ih =>
    obtain ⟨u, hu, hinv⟩ := hstep before s a hs hguard.1
    obtain ⟨t, ht, hinv⟩ := ih _ hinv (hguard.2 u hu)
    exact ⟨t, by simp [run, hu, ht], by simpa using hinv⟩

omit hstep in
theorem run_total (hstep : ∀ s a, Inv s → guard s a → ∃ t, step s a = some t ∧ Inv t)
    (hs : Inv s) (hguard : Along step guard s as) : ∃ t, run step s as = some t ∧ Inv t :=
  run_history [] (fun _ => hstep) hs hguard

theorem along_congr (hiff : ∀ s a, Inv s → (guard' s a ↔ guard s a)) (hs : Inv s) (as : List α) :
    Along step guard' s as ↔ Along step guard s as := by
  induction as generalizing s with
  | nil => exact Iff.rfl
  | cons a as ih =>
    constructor
    · rintro ⟨ha, has⟩
      have hguard := (hiff s a hs).mp ha
      exact ⟨hguard, fun t ht => (ih (hstep s a t hs hguard ht)).mp (has t ht)⟩
    · rintro ⟨ha, has⟩
      exact ⟨(hiff s a hs).mpr ha, fun t ht => (ih (hstep s a t hs ha ht)).mpr (has t ht)⟩

theorem run_along_congr (hiff : ∀ s a t, Inv s → step s a = some t → (guard' s a ↔ guard s a))
    (hs : Inv s) (hrun : run step s as = some t) :
    Along step guard' s as ↔ Along step guard s as := by
  induction as generalizing s with
  | nil => exact Iff.rfl
  | cons a as ih =>
    obtain ⟨u, hu, hrun⟩ := bind_eq_some_iff.mp hrun
    have hagree := hiff s a u hs hu
    constructor
    · rintro ⟨ha, has⟩
      have hguard := hagree.mp ha
      refine ⟨hguard, fun t ht => ?_⟩
      cases hu.symm.trans ht
      exact (ih (hstep s a u hs hguard hu) hrun).mp (has u hu)
    · rintro ⟨ha, has⟩
      refine ⟨hagree.mpr ha, fun t ht => ?_⟩
      cases hu.symm.trans ht
      exact (ih (hstep s a u hs ha hu) hrun).mpr (has u hu)

end

theorem along_iff_prefixes {allowed : σ → α → Prop} {Good : σ → Prop}
    (hstep : ∀ s a, Inv s → allowed s a → guard s a → ∃ t, step s a = some t ∧ Inv t)
    (hgood : ∀ s, Inv s → Good s)
    (hbad : ∀ s a t, Inv s → allowed s a → step s a = some t → Good t → guard s a)
    (hs : Inv s) (hallowed : Along step allowed s as) :
    Along step guard s as ↔ ∀ bs, bs <+: as → ∃ t, run step s bs = some t ∧ Good t := by
  induction as generalizing s with
  | nil =>
    refine iff_of_true trivial fun bs hbs => ?_
    rw [prefix_nil.mp hbs]
    exact ⟨s, rfl, hgood s hs⟩
  | cons a as ih =>
    obtain ⟨ha, has⟩ := hallowed
    constructor
    · rintro ⟨hguard, hrest⟩ bs hbs
      obtain ⟨t, ht, hinv⟩ := hstep s a hs ha hguard
      rcases prefix_cons_iff.mp hbs with rfl | ⟨cs, rfl, hcs⟩
      · exact ⟨s, rfl, hgood s hs⟩
      · obtain ⟨u, hu, hgoodu⟩ := (ih hinv (has t ht)).mp (hrest t ht) cs hcs
        exact ⟨u, bind_eq_some_iff.mpr ⟨t, ht, hu⟩, hgoodu⟩
    · intro hall
      obtain ⟨t, ht, hgoodt⟩ := hall [a] (by simp)
      obtain ⟨u, hu, htu⟩ := bind_eq_some_iff.mp ht
      obtain rfl := some.inj htu
      have hguard := hbad s a u hs ha hu hgoodt
      refine ⟨hguard, fun t ht => ?_⟩
      obtain ⟨v, hv, hinv⟩ := hstep s a hs ha hguard
      obtain rfl := some.inj (hv.symm.trans ht)
      refine (ih hinv (has v ht)).mpr fun cs hcs => ?_
      obtain ⟨w, hw, hgoodw⟩ := hall (a :: cs) (cons_prefix_cons.mpr ⟨rfl, hcs⟩)
      obtain ⟨x, hx, hxw⟩ := bind_eq_some_iff.mp hw
      obtain rfl := some.inj (hx.symm.trans ht)
      exact ⟨w, hxw, hgoodw⟩

end GuardedRuns
