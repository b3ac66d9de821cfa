import Mathlib.Algebra.BigOperators.Group.Finset.Piecewise

/-! Free items in a row, and counters beside a set of free items: for each class of items how many
are free, and bounds between which the free ones lie. -/
namespace FreeCounts

open Finset

variable {free : ℕ → Bool} {lo addr len : ℕ}

/-- The `len` items below `addr` are free, and none of them lies below `lo`. -/
def FreeRun (free : ℕ → Bool) (lo addr len : ℕ) : Prop :=
  lo + len ≤ addr ∧ ∀ m, addr ≤ m + len → m < addr → free m = true

theorem freeRun_start (free : ℕ → Bool) (lo : ℕ) : FreeRun free lo lo 0 :=
  ⟨le_rfl, fun m hm hlt => absurd hlt (by omega)⟩

theorem FreeRun.skip (h : FreeRun free lo addr len) {addr' : ℕ} (hle : addr ≤ addr') :
    FreeRun free lo addr' 0 :=
  ⟨by have := h.1; omega, fun m hm hlt => absurd hlt (by omega)⟩

theorem FreeRun.next (h : FreeRun free lo addr len) (hfree : free addr = true) :
    FreeRun free lo (addr + 1) (len + 1) := by
  refine ⟨by have := h.1; omega, fun m hm hlt => ?_⟩
  rcases Nat.lt_succ_iff_lt_or_eq.mp hlt with hlt | rfl
  · exact h.2 m (by omega) hlt
  · exact hfree

/-- The items from `n` on are free, `len` of them. -/
def RunAt (free : ℕ → Bool) (len n : ℕ) : Prop := ∀ m, n ≤ m → m < n + len → free m = true

/-- Between `first` and `last` there is a run of which all items, of `size` each, are below `limit`.
-/
def RunBelow (free : ℕ → Bool) (first last len size limit : ℕ) : Prop :=
  ∃ n, first ≤ n ∧ n + len ≤ last + 1 ∧ RunAt free len n ∧ (n + len) * size ≤ limit

/-- No run of `count` free items from `lo` on begins before the `len` items below `addr`. -/
def Earliest (free : ℕ → Bool) (lo count addr len : ℕ) : Prop :=
  ∀ n, lo ≤ n → RunAt free count n → addr ≤ n + len

variable {count addr' : ℕ}

theorem earliest_start (free : ℕ → Bool) (lo count : ℕ) : Earliest free lo count lo 0 :=
  fun _ hn _ => hn

theorem Earliest.skip (h : Earliest free lo count addr len) (hlen : len < count)
    (hlt : addr < addr') (hused : ∀ m, addr ≤ m → m < addr' → free m = false) :
    Earliest free lo count addr' 0 := by
  intro n hn hrun
  have hstart := h n hn hrun
  by_contra hbefore
  -- the run has an item that is not free: its first one, or the one at `addr`
  have hfree := hrun (max n addr) (by omega) (by omega)
  rw [hused (max n addr) (by omega) (by omega)] at hfree
  cases hfree

theorem Earliest.next (h : Earliest free lo count addr len) :
    Earliest free lo count (addr + 1) (len + 1) := fun n hn hrun => by
  have := h n hn hrun
  omega

variable {ι : Type*} [DecidableEq ι] {items : Finset ℕ} {cls : ℕ → ι} {free' : ℕ → Bool}
  {num : ι → ℤ} {first last : ι → ℕ} {n : ℕ}

def freeOf (items : Finset ℕ) (cls : ℕ → ι) (free : ℕ → Bool) (r : ι) : Finset ℕ :=
  items.filter fun n => free n = true ∧ cls n = r

/-- The counters say how many free items there are in each class, and bound them. -/
structure Accounted (items : Finset ℕ) (cls : ℕ → ι) (free : ℕ → Bool) (num : ι → ℤ)
    (first last : ι → ℕ) : Prop where
  count : ∀ r, num r = (freeOf items cls free r).card
  between : ∀ n ∈ items, free n = true → first (cls n) ≤ n ∧ n ≤ last (cls n)

theorem card_freeOf (cls : ℕ → ι) (hn : n ∈ items) (hused : free n = false)
    (hfree' : ∀ m ∈ items, free' m = (free m || decide (m = n))) (r : ι) :
    ((freeOf items cls free' r).card : ℤ) =
      (freeOf items cls free r).card + if r = cls n then 1 else 0 := by
  -- the two sums differ at `n` only
  have hrest : ∀ m ∈ items.erase n, (if free' m = true ∧ cls m = r then 1 else 0) =
      if free m = true ∧ cls m = r then 1 else 0 := by
    intro m hm
    obtain ⟨hne, hm⟩ := mem_erase.mp hm
    rw [hfree' m hm, decide_eq_false hne, Bool.or_false]
  rw [freeOf, freeOf, card_filter, card_filter, ← add_sum_erase items _ hn,
    ← add_sum_erase items _ hn, sum_congr rfl hrest]
  have hself : free' n = true := by rw [hfree' n hn, decide_eq_true rfl, Bool.or_true]
  simp only [hself, hused, true_and, Bool.false_eq_true, false_and, if_false, eq_comm (a := r)]
  split_ifs <;> omega

section

variable (h : Accounted items cls free num first last)
include h

theorem Accounted.congr
    (hfree' : ∀ m ∈ items, free' m = free m) : Accounted items cls free' num first last where
  count r := by
    have hsame : freeOf items cls free' r = freeOf items cls free r :=
      filter_congr fun m hm => by rw [hfree' m hm]
    rw [h.count r, hsame]
  between m hm hfree := h.between m hm (hfree' m hm ▸ hfree)

theorem Accounted.num_pos (hn : n ∈ items) (hfree : free n = true) : 0 < num (cls n) := by
  rw [h.count]
  exact Int.natCast_pos.mpr (card_pos.mpr ⟨n, mem_filter.mpr ⟨hn, hfree, rfl⟩⟩)

theorem Accounted.num_le (r : ι) : num r ≤ items.card := by
  rw [h.count]
  exact Int.ofNat_le.mpr (card_filter_le ..)

theorem Accounted.take (hn : n ∈ items)
    (hfree : free n = true) (hfree' : ∀ m ∈ items, free' m = (free m && !decide (m = n)))
    {num' : ι → ℤ} (hnum : ∀ r, num' r = num r - if r = cls n then 1 else 0)
    {first' : ι → ℕ} (hfirst : ∀ r, first' r = first r ∨
      (r = cls n ∧ n = first r ∧ first' r = first r + 1)) :
    Accounted items cls free' num' first' last := by
  have hback : ∀ m ∈ items, free m = (free' m || decide (m = n)) := by
    intro m hm
    rw [hfree' m hm]
    by_cases heq : m = n
    · rw [heq, hfree]
      simp
    · simp [heq]
  have hused : free' n = false := by
    rw [hfree' n hn]
    simp
  constructor
  case count =>
    intro r
    have hcard := card_freeOf cls hn hused hback r
    rw [hnum r, h.count r]
    omega
  case between =>
    intro m hm hm'
    rw [hfree' m hm, Bool.and_eq_true, Bool.not_eq_true', decide_eq_false_iff_not] at hm'
    obtain ⟨hle, hlast⟩ := h.between m hm hm'.1
    refine ⟨?_, hlast⟩
    rcases hfirst (cls m) with heq | ⟨-, hfirst', heq⟩
    · rw [heq]
      exact hle
    · omega

end

variable {first' last' : ι → ℕ}

variable (h : Accounted items cls free num first last) (hn : n ∈ items)
include h hn

theorem Accounted.not_uncounted
    (hfree : free n = true) (hfree' : ∀ m ∈ items, free' m = (free m && !decide (m = n)))
    : ¬ Accounted items cls free' num first' last' := by
  intro h'
  have htaken := (h.take hn hfree hfree' (fun _ => rfl) fun _ => .inl rfl).count (cls n)
  rw [← h'.count (cls n), if_pos rfl] at htaken
  omega

section

variable (hused : free n = false) (hfree' : ∀ m ∈ items, free' m = (free m || decide (m = n)))
include hused hfree'

theorem Accounted.gain {num' : ι → ℤ} (hnum : ∀ r, num' r = num r + if r = cls n then 1 else 0)
    (hbetween : ∀ m ∈ items, free' m = true → first' (cls m) ≤ m ∧ m ≤ last' (cls m)) :
    Accounted items cls free' num' first' last' where
  count r := by rw [hnum r, h.count r, card_freeOf cls hn hused hfree']
  between := hbetween

theorem Accounted.give {num' : ι → ℤ} (hnum : ∀ r, num' r = num r + if r = cls n then 1 else 0)
    (hfirst : ∀ r, first' r ≤ first r) (hfirst' : first' (cls n) ≤ n)
    (hlast : ∀ r, last r ≤ last' r) (hlast' : n ≤ last' (cls n)) :
    Accounted items cls free' num' first' last' := by
  apply h.gain hn hused hfree' hnum
  intro m hm hm'
  rw [hfree' m hm, Bool.or_eq_true, decide_eq_true_eq] at hm'
  rcases hm' with hm' | rfl
  · obtain ⟨hle, hle'⟩ := h.between m hm hm'
    exact ⟨(hfirst _).trans hle, hle'.trans (hlast _)⟩
  · exact ⟨hfirst', hlast'⟩

end

end FreeCounts
