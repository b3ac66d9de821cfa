import Mathlib.Data.List.Pairwise
import Mathlib.Data.List.TakeWhile
import Mathlib.Algebra.Order.Ring.Int

/-! Lists that are kept in the order of a key, and the search that stops at the first entry whose
key is not smaller than the one looked for. -/
namespace SortedLists

open List

variable {α κ : Type*} [LinearOrder κ] {key : α → κ} {k : κ} {xs as bs : List α} {x y : α}

def Sorted (key : α → κ) (xs : List α) : Prop := xs.Pairwise fun x y => key x < key y

section

variable (key) (k) (xs)

def below : List α := xs.takeWhile fun x => key x < k

def onward : List α := xs.dropWhile fun x => key x < k

theorem below_append_onward : below key k xs ++ onward key k xs = xs :=
  takeWhile_append_dropWhile

end

theorem below_lt (hx : x ∈ below key k xs) : key x < k := by
  simpa using mem_takeWhile_imp hx

theorem le_onward (h : onward key k xs = x :: as) : k ≤ key x := by
  have hhead := head?_dropWhile_not (fun x => decide (key x < k)) xs
  have hdrop : xs.dropWhile (fun x => decide (key x < k)) = x :: as := h
  rw [hdrop] at hhead
  exact not_lt.mp (of_decide_eq_false hhead)

theorem search_cut (hbelow : ∀ y ∈ as, key y < k) (hx : k ≤ key x) :
    below key k (as ++ x :: bs) = as ∧ onward key k (as ++ x :: bs) = x :: bs := by
  have hstop : ¬ key x < k := not_lt.mpr hx
  constructor
  · rw [below, takeWhile_append_of_pos (by simpa using hbelow)]
    simp [hstop]
  · rw [onward, dropWhile_append_of_pos (by simpa using hbelow)]
    simp [hstop]

theorem Sorted.cut (h : Sorted key (as ++ bs)) :
    Sorted key as ∧ Sorted key bs ∧ ∀ x ∈ as, ∀ y ∈ bs, key x < key y :=
  pairwise_append.mp h

theorem Sorted.onward_lt (h : Sorted key xs) (honward : onward key k xs = x :: as) (hy : y ∈ as) :
    key x < key y := by
  rw [← below_append_onward key k xs, honward] at h
  obtain ⟨-, hrest, -⟩ := h.cut
  exact (pairwise_cons.mp hrest).1 y hy

theorem Sorted.insert (h : Sorted key (as ++ bs)) (has : ∀ y ∈ as, key y < key x)
    (hbs : ∀ y ∈ bs, key x < key y) : Sorted key (as ++ x :: bs) := by
  obtain ⟨ha, hb, hab⟩ := h.cut
  apply pairwise_append.mpr
  refine ⟨ha, pairwise_cons.mpr ⟨hbs, hb⟩, fun y hy z hz => ?_⟩
  rcases mem_cons.mp hz with rfl | hz
  · exact has y hy
  · exact hab y hy z hz

theorem Sorted.replace (h : Sorted key (as ++ x :: bs)) (hkey : key y = key x) :
    Sorted key (as ++ y :: bs) := by
  rw [Sorted, ← pairwise_map] at h ⊢
  rwa [map_append, map_cons, hkey, ← map_cons, ← map_append]

theorem Sorted.remove (h : Sorted key (as ++ x :: bs)) : Sorted key (as ++ bs) :=
  h.sublist (List.Sublist.append (List.Sublist.refl as) (sublist_cons_self x bs))

theorem Sorted.unique (h : Sorted key xs) (hx : x ∈ xs) (hy : y ∈ xs) (hkey : key x = key y) :
    x = y := by
  have hdistinct : xs.Pairwise fun x y => key x ≠ key y := h.imp ne_of_lt
  have : Std.Symm fun x y : α => key x ≠ key y := ⟨fun _ _ hxy => hxy.symm⟩
  by_contra hne
  exact hdistinct.forall hx hy hne hkey

theorem Sorted.search (h : Sorted key xs) : (∃ x as, onward key k xs = x :: as ∧ key x = k) ∨
      ((∀ y ∈ xs, key y ≠ k) ∧ ∀ y ∈ onward key k xs, k < key y) := by
  cases honward : onward key k xs with
  | nil =>
    right
    constructor
    · intro y hy
      rw [← below_append_onward key k xs, honward, append_nil] at hy
      exact ne_of_lt (below_lt hy)
    · intro y hy
      cases hy
  | cons x as =>
    rcases eq_or_lt_of_le (le_onward honward) with heq | hlt
    · exact .inl ⟨x, as, rfl, heq.symm⟩
    have hlarge : ∀ y ∈ x :: as, k < key y :=
      forall_mem_cons.mpr ⟨hlt, fun y hy => hlt.trans (h.onward_lt honward hy)⟩
    right
    constructor
    · intro y hy
      rw [← below_append_onward key k xs, honward] at hy
      rcases mem_append.mp hy with hy | hy
      · exact ne_of_lt (below_lt hy)
      · exact ne_of_gt (hlarge y hy)
    · exact hlarge

end SortedLists
