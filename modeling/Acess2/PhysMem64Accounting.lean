import Mathlib.Order.Interval.Finset.Nat
import Acess2.PhysMem64Range

/-! The counts of free frames on x86_64: for each class of addresses how many frames are free, and
the first and the last of them. -/
namespace PhysMem64Accounting

open FreeCounts Function List Option PhysMem64Model PhysMem64Range WordBitmaps Nat Finset Bool

/-- The counts and bounds of the classes are right about the frames but 0 below `giMaxPhysPage`. -/
def CountsFree (s : PhysMem) : Prop :=
  Accounted (Finset.Ico 1 s.maxPhysPage) rangeOf (fun n => !s.used n)
    (fun r => ((s.ranges.free r).toNat : ℤ)) s.ranges.first s.ranges.last

/-- A frame is referenced in use or not counted; it is dropped in use, and if that frees it, it is
counted, in a class that has had free frames. -/
def Meets (s : PhysMem) : Call → Prop
  | .allocPhysRange _ _ => True
  | .allocPhys => True
  | .refPhys pAddr =>
    let n := pAddr / pageSize
    s.used n = true ∨ n = 0 ∨ s.maxPhysPage ≤ n
  | .derefPhys pAddr =>
    let n := pAddr / pageSize
    s.maxPhysPage < n ∨ (s.used n = true ∧
      (Shared s n ∨ (1 ≤ n ∧ n < s.maxPhysPage ∧ s.ranges.first (rangeOf n) ≠ 0)))

instance (s : PhysMem) : DecidablePred (Meets s) := fun c => by
  cases c <;> dsimp only [Meets] <;> infer_instance

variable {s t : PhysMem} {n : ℕ}

structure Inv (s : PhysMem) : Prop where
  counts : CountsFree s
  first : ∀ r, s.ranges.free r ≠ 0 → s.ranges.first r ≠ 0
  last : ∀ r, s.ranges.last r ≤ s.maxPhysPage - 1
  small : s.maxPhysPage < 2 ^ 52

theorem toNat_take {c : Ranges} (hn : c.free (rangeOf n) ≠ 0) (r : ℕ) :
    (((c.take n).free r).toNat : ℤ) = (c.free r).toNat - if r = rangeOf n then 1 else 0 := by
  change ((update c.free (rangeOf n) (c.free (rangeOf n) - 1) r).toNat : ℤ) = _
  by_cases hr : r = rangeOf n
  · rw [hr, update_self, if_pos rfl]
    bv_omega
  · rw [update_of_ne hr, if_neg hr, sub_zero]

theorem toNat_plus {f : ℕ → BitVec 64} {k : ℕ} (hk : (f k).toNat < 2 ^ 52) (r : ℕ) :
    ((update f k (f k + 1) r).toNat : ℤ) = (f r).toNat + if r = k then 1 else 0 := by
  by_cases hr : r = k
  · rw [hr, update_self, if_pos rfl]
    bv_omega
  · rw [update_of_ne hr, if_neg hr, add_zero]

theorem take_first (c : Ranges) (n r : ℕ) : (c.take n).first r = c.first r ∨
    (r = rangeOf n ∧ n = c.first r ∧ (c.take n).first r = c.first r + 1) := by
  rw [Ranges.take]
  dsimp only
  split_ifs with hfirst
  · by_cases hr : r = rangeOf n
    · subst hr
      rw [update_self]
      exact .inr ⟨rfl, hfirst, rfl⟩
    · rw [update_of_ne hr]
      exact .inl rfl
  · exact .inl rfl

theorem takeFrame_inv (h : Inv s) (hn : n ∈ Finset.Ico 1 s.maxPhysPage)
    (hfree : s.used n = false) : Inv (takeFrame s n) := by
  have hfree' : (!s.used n) = true := by rw [hfree]; rfl
  have hpos := h.counts.num_pos hn hfree'
  have hne : s.ranges.free (rangeOf n) ≠ 0 := by
    intro hzero
    rw [hzero] at hpos
    exact absurd hpos (by decide)
  obtain ⟨refs, heq⟩ := takeFrame_eq s n
  have hcounts : Accounted (Finset.Ico 1 s.maxPhysPage) rangeOf (fun m => !(takeFrame s n).used m)
      (fun r => (((s.ranges.take n).free r).toNat : ℤ)) (s.ranges.take n).first s.ranges.last := by
    refine h.counts.take hn hfree' (fun m _ => ?_) (toNat_take hne) (take_first s.ranges n)
    rw [used_takeFrame, Bool.not_or]
  rw [heq] at hcounts ⊢
  constructor
  case counts => exact hcounts
  case first =>
    intro r hr
    have hold : s.ranges.first r ≠ 0 := by
      apply h.first r
      intro hzero
      by_cases hr' : r = rangeOf n
      · exact hne (hr' ▸ hzero)
      · have : (s.ranges.take n).free r = s.ranges.free r := update_of_ne hr' _ _
        exact hr (this.trans hzero)
    rcases take_first s.ranges n r with hsame | ⟨-, -, hnext⟩
    · exact fun hzero => hold (hsame.symm.trans hzero)
    · exact fun hzero => succ_ne_zero _ (hnext.symm.trans hzero)
  case last => exact h.last
  case small => exact h.small

theorem takeFrame_maxPhysPage : (takeFrame s n).maxPhysPage = s.maxPhysPage := by
  obtain ⟨refs, heq⟩ := takeFrame_eq s n
  rw [heq]

variable {pages : ℕ}

theorem takeFrames_inv (h : Inv s) (hlow : 1 ≤ n) (hhigh : n + pages ≤ s.maxPhysPage)
    (hfree : ∀ m, n ≤ m → m < n + pages → s.used m = false) : Inv (takeFrames pages s n) := by
  induction pages generalizing s n with
  | zero => exact h
  | succ pages ih =>
    have hn : n ∈ Finset.Ico 1 s.maxPhysPage := mem_Ico.mpr ⟨hlow, by omega⟩
    apply ih (takeFrame_inv h hn (hfree n le_rfl (by omega))) (by omega)
    · rw [takeFrame_maxPhysPage]
      omega
    · intro m hm hlt
      rw [used_takeFrame, hfree m (by omega) (by omega), decide_eq_false (by omega)]
      rfl

theorem Inv.found (h : Inv s) {r : ℕ} (hfound : Found s pages r n) :
    1 ≤ n ∧ n + pages ≤ s.maxPhysPage := by
  have hfirst := h.first r hfound.some_free
  have hle := hfound.first_le
  have hlast := hfound.le_last
  have hpages := hfound.pages_pos
  have htop := h.last r
  omega

theorem allocPhysRange_inv (h : Inv s) (pages : ℕ) (maxBits : ℤ) :
    Inv (mmAllocPhysRange s pages maxBits).2 := by
  rcases mmAllocPhysRange_cases s pages maxBits with heq | ⟨n, hfound, heq⟩
  · rw [heq]
    exact h
  · obtain ⟨hlow, hhigh⟩ := h.found hfound
    have hinv := takeFrames_inv h hlow hhigh hfound.free
    obtain ⟨sup, hsuper⟩ := updateSuper_eq (superRounds pages n) (takeFrames pages s n) n
    rw [heq, hsuper]
    exact ⟨hinv.counts, hinv.first, hinv.last, hinv.small⟩

theorem allocPhysRange_fails (h : Inv s) {maxBits : ℤ}
    (hzero : (mmAllocPhysRange s pages maxBits).1 = 0) :
    mmAllocPhysRange s pages maxBits = (0, s) := by
  rcases mmAllocPhysRange_cases s pages maxBits with heq | ⟨n, hfound, heq⟩
  · exact heq
  obtain ⟨hlow, hhigh⟩ := h.found hfound
  have hsmall := h.small
  rw [heq] at hzero
  have hmod : n * pageSize % 2 ^ 64 = n * pageSize := by
    apply mod_eq_of_lt
    rw [pageSize]
    omega
  rw [hmod, pageSize] at hzero
  omega

theorem allocPhys_inv (s : PhysMem) (h : Inv s) : Inv (mmAllocPhys s).2 := by
  rw [mmAllocPhys]
  split
  · exact { h with }
  · exact allocPhysRange_inv h 1 (-1)

theorem allocPhys_fails (h : Inv s) (hzero : (mmAllocPhys s).1 = 0) : mmAllocPhys s = (0, s) := by
  rw [mmAllocPhys] at hzero ⊢
  split at hzero
  · rename_i i hi
    obtain ⟨hlt, hpage, -⟩ := findIdx?_eq_some_iff_getElem.mp hi
    rw [getD_eq_getElem?_getD, getElem?_eq_getElem hlt] at hzero
    exact absurd hzero (of_decide_eq_true hpage)
  · exact allocPhysRange_fails h hzero

theorem Grown.counts (h : Grown s t) (hs : Inv s) : Inv t :=
  h.keeps allocPhys_inv (fun _ _ _ _ h => { h with }) hs

variable {block level : ℕ}

theorem allocPhys_tables (s : PhysMem) : (mmAllocPhys s).2.refTables = s.refTables ∧
    (mmAllocPhys s).2.refMapped = s.refMapped := by
  rw [mmAllocPhys]
  split
  · exact ⟨rfl, rfl⟩
  rcases mmAllocPhysRange_cases s 1 (-1) with heq | ⟨n, -, heq⟩
  · rw [heq]
    exact ⟨rfl, rfl⟩
  · obtain ⟨sup, hsuper⟩ := updateSuper_eq (superRounds 1 n) (takeFrames 1 s n) n
    obtain ⟨main, refs, c, hframes, -⟩ := takeFrames_eq 1 s n
    rw [heq, hsuper, hframes]
    exact ⟨rfl, rfl⟩

/-- The tables above the block exist, on the lowest `level` levels. -/
def Tabled (s : PhysMem) (block level : ℕ) : Prop :=
  ∀ l, l < level → s.refTables l (block / 2 ^ (9 * (l + 1))) = true

theorem ensureTables_mapped (block level : ℕ) (s : PhysMem) :
    (ensureTables block level s).2.refMapped = s.refMapped :=
  ensureTables_keeps (P := fun t => t.refMapped = s.refMapped)
    (fun t h => (allocPhys_tables t).2.trans h) (fun _ _ _ h => h) block level rfl

theorem addTable_tables (s : PhysMem) (level idx l i : ℕ) :
    (addTable s level idx).refTables l i = true ↔
      (l = level ∧ i = idx) ∨ s.refTables l i = true := by
  change update s.refTables level (update (s.refTables level) idx true) l i = true ↔ _
  by_cases hl : l = level
  · subst hl
    by_cases hi : i = idx
    · simp [hi]
    · simp [hi]
  · simp [hl]

theorem ensureTables_mono (block level : ℕ) (s : PhysMem) {l i : ℕ}
    (h : s.refTables l i = true) : (ensureTables block level s).2.refTables l i = true :=
  ensureTables_keeps (P := fun t => t.refTables l i = true)
    (fun t ht => (allocPhys_tables t).1 ▸ ht) (fun _ _ _ ht => (addTable_tables ..).mpr (.inr ht))
    block level h

theorem ensureTables_tabled (h : (ensureTables block level s).1 = true) :
    Tabled (ensureTables block level s).2 block level := by
  induction level generalizing s with
  | zero => exact fun l hl => absurd hl (by omega)
  | succ level ih =>
    intro l hl
    rw [ensureTables] at h ⊢
    split_ifs at h ⊢ with hthere
    · rcases Nat.lt_succ_iff_lt_or_eq.mp hl with hlt | rfl
      · exact ih h l hlt
      · exact ensureTables_mono block l s hthere
    · dsimp only at h ⊢
      split_ifs at h ⊢ with hfail
      rcases Nat.lt_succ_iff_lt_or_eq.mp hl with hlt | rfl
      · exact ih h l hlt
      · exact ensureTables_mono block l _ ((addTable_tables ..).mpr (.inl ⟨rfl, rfl⟩))

theorem Tabled.ensureTables (h : Tabled s block level) :
    ensureTables block level s = (true, s) := by
  induction level with
  | zero => rfl
  | succ level ih =>
    rw [PhysMem64Model.ensureTables, if_pos (h level (lt_succ_self level))]
    exact ih fun l hl => h l (lt_succ_of_lt hl)

theorem ensureTables_fails (hs : Inv s) (h : (ensureTables block level s).1 = false) :
    mmAllocPhys (ensureTables block level s).2 = (0, (ensureTables block level s).2) := by
  induction level generalizing s with
  | zero => cases h
  | succ level ih =>
    rw [ensureTables] at h ⊢
    split_ifs at h ⊢ with hthere
    · exact ih hs h
    dsimp only at h ⊢
    split_ifs at h ⊢ with hfail
    · have hfails := allocPhys_fails hs hfail
      rw [hfails]
      exact hfails
    · have hinv := allocPhys_inv s hs
      exact ih ⟨hinv.counts, hinv.first, hinv.last, hinv.small⟩ h

theorem mmAllocate_counts {ok : Bool} (hs : Inv s) (hblock : s.refMapped block = false)
    (h : mmAllocate s block = some (ok, t)) : Inv t := by
  have hgrown : Grown s (ensureTables block 3 s).2 := Grown.refl.tables block 3
  have hinv := Grown.counts hgrown.alloc hs
  rw [mmAllocate] at h
  dsimp only at h
  split_ifs at h with hzero hok
  · cases h
    exact hinv
  · cases h
    have hinv' := Grown.counts (hgrown.alloc.tables block 3) hs
    exact ⟨hinv'.counts, hinv'.first, hinv'.last, hinv'.small⟩
  exfalso
  apply hok
  cases hfirst : (ensureTables block 3 s).1 with
  | false =>
    rw [ensureTables_fails hs hfirst] at hzero
    exact absurd rfl hzero
  | true =>
    have htabled : Tabled (mmAllocPhys (ensureTables block 3 s).2).2 block 3 := by
      intro l hl
      rw [(allocPhys_tables _).1]
      exact ensureTables_tabled hfirst l hl
    rw [htabled.ensureTables]
    refine ⟨rfl, ?_⟩
    rw [(allocPhys_tables _).2, ensureTables_mapped]
    exact hblock

theorem needReference_counts {ok : Bool} (hs : Inv s) (h : needReference s n = some (ok, t)) :
    Inv t := by
  rw [needReference] at h
  split_ifs at h with hcounted
  · cases h
    exact hs
  obtain ⟨⟨allocated, u⟩, halloc, hfill⟩ := bind_eq_some_iff.mp h
  have hu := mmAllocate_counts hs (eq_false_of_not_eq_true hcounted) halloc
  cases allocated with
  | false =>
    cases hfill
    exact hu
  | true =>
    obtain ⟨v, hblock, heq⟩ := map_eq_some_iff.mp hfill
    cases heq
    obtain ⟨refs, rfl⟩ := fillBlock_eq hblock
    exact ⟨hu.counts, hu.first, hu.last, hu.small⟩

theorem refFree_inv (h : Inv s) (hn : n = 0 ∨ s.maxPhysPage ≤ n) :
    Inv (setReference (markBlock (setUsed s n) n) n) := by
  have hcounts : Accounted (Finset.Ico 1 s.maxPhysPage) rangeOf (fun m => !(setUsed s n).used m)
      (fun r => ((s.ranges.free r).toNat : ℤ)) s.ranges.first s.ranges.last := by
    refine h.counts.congr fun m hm => ?_
    have hne : m ≠ n := by
      have := mem_Ico.mp hm
      omega
    rw [used_setUsed, decide_eq_false hne, Bool.or_false]
  obtain ⟨refs, hrefs⟩ := setReference_eq (markBlock (setUsed s n) n) n
  obtain ⟨sup, hsuper⟩ := markBlock_eq (setUsed s n) n
  rw [hrefs, hsuper]
  exact ⟨hcounts, h.first, h.last, h.small⟩

variable {pAddr : ℕ}

theorem mmRefPhys_free (hn : pAddr / pageSize = n) (hmax : n ≤ s.maxPhysPage)
    (hword : n / 64 < s.bitmapWords) (hfree : s.used n = false) :
    mmRefPhys s pAddr = some (setReference (markBlock (setUsed s n) n) n) := by
  rw [mmRefPhys, hn, if_neg (not_lt.mpr hmax), if_neg (not_le.mpr hword), hfree, if_neg (by decide)]

theorem refFree_breaks (h : CountsFree s) (hn : n ∈ Finset.Ico 1 s.maxPhysPage)
    (hfree : s.used n = false) :
    ¬ CountsFree (setReference (markBlock (setUsed s n) n) n) := by
  obtain ⟨refs, hrefs⟩ := setReference_eq (markBlock (setUsed s n) n) n
  obtain ⟨sup, hsuper⟩ := markBlock_eq (setUsed s n) n
  rw [hrefs, hsuper]
  refine h.not_uncounted hn (by rw [hfree]; rfl) fun m _ => ?_
  rw [← Bool.not_or, ← used_setUsed]
  rfl

theorem refPhys_inv (hs : Inv s) (hmeets : Meets s (.refPhys pAddr))
    (h : mmRefPhys s pAddr = some t) : Inv t := by
  rw [mmRefPhys] at h
  split_ifs at h with hbeyond hfault hused
  · cases h
    exact hs
  · obtain ⟨⟨ok, u⟩, hneed, heq⟩ := map_eq_some_iff.mp h
    have hu := needReference_counts hs hneed
    cases ok with
    | false =>
      obtain rfl : u = t := heq
      exact hu
    | true =>
      obtain rfl : addReference u (pAddr / pageSize) = t := heq
      exact ⟨hu.counts, hu.first, hu.last, hu.small⟩
  · cases h
    exact refFree_inv hs (hmeets.resolve_left hused)

theorem give_first (c : Ranges) (n r : ℕ) :
    (c.give n).first r = if r = rangeOf n then min (c.first r) n else c.first r := by
  rw [Ranges.give]
  dsimp only
  split_ifs with hfirst hr hr
  · rw [hr, update_self, Nat.min_eq_right (by omega)]
  · rw [update_of_ne hr]
  · subst hr
    rw [Nat.min_eq_left (by omega)]
  · rfl

theorem give_last (c : Ranges) (n r : ℕ) :
    (c.give n).last r = if r = rangeOf n then max (c.last r) n else c.last r := by
  rw [Ranges.give]
  dsimp only
  split_ifs with hlast hr hr
  · rw [hr, update_self, Nat.max_eq_right (by omega)]
  · rw [update_of_ne hr]
  · subst hr
    rw [Nat.max_eq_left (by omega)]
  · rfl

theorem Inv.free_lt (h : Inv s) (r : ℕ) : (s.ranges.free r).toNat < 2 ^ 52 := by
  have hle := h.counts.num_le r
  have hsmall := h.small
  rw [card_Ico] at hle
  omega

theorem give_counts (h : Inv s) (hn : n ∈ Finset.Ico 1 s.maxPhysPage) (hused : s.used n = true)
    {free' : ℕ → Bool} (hfree' : ∀ m, free' m = (!s.used m || decide (m = n))) :
    Accounted (Finset.Ico 1 s.maxPhysPage) rangeOf free'
      (fun r => (((s.ranges.give n).free r).toNat : ℤ)) (s.ranges.give n).first
      (s.ranges.give n).last := by
  apply h.counts.give hn
  · rw [hused]
    rfl
  · exact fun m _ => hfree' m
  · exact toNat_plus (h.free_lt (rangeOf n))
  · intro r
    rw [give_first]
    split_ifs
    · exact min_le_left ..
    · exact le_rfl
  · rw [give_first, if_pos rfl]
    exact min_le_right ..
  · intro r
    rw [give_last]
    split_ifs
    · exact le_max_left ..
    · exact le_rfl
  · rw [give_last, if_pos rfl]
    exact le_max_right ..

theorem give_bounds (h : Inv s) (hn : n ∈ Finset.Ico 1 s.maxPhysPage)
    (hclass : s.ranges.first (rangeOf n) ≠ 0) (r : ℕ) :
    ((s.ranges.give n).free r ≠ 0 → (s.ranges.give n).first r ≠ 0) ∧
      (s.ranges.give n).last r ≤ s.maxPhysPage - 1 := by
  obtain ⟨hlow, hhigh⟩ := mem_Ico.mp hn
  have hlast := h.last r
  rw [give_first, give_last]
  split_ifs with hr
  · subst hr
    exact ⟨fun _ => by omega, by omega⟩
  · refine ⟨fun hfree => h.first r ?_, hlast⟩
    have : (s.ranges.give n).free r = s.ranges.free r := update_of_ne hr _ _
    rwa [this] at hfree

theorem derefFrame_inv (h : Inv s) (hused : s.used n = true)
    (hn : Shared s n ∨ (1 ≤ n ∧ n < s.maxPhysPage ∧ s.ranges.first (rangeOf n) ≠ 0)) :
    Inv (derefFrame s n) := by
  obtain ⟨main, refs, c, heq, hmain, hc⟩ := derefFrame_eq s n
  obtain ⟨sup, hsuper⟩ :=
    unmarkBlock_eq { s with mainBitmap := main, pageReferences := refs, ranges := c } n
  rw [heq, hsuper]
  by_cases hshared : Shared s n
  · have hsame : ∀ m, bit main m = s.used m := by
      intro m
      simp [hmain m, hshared]
    rw [if_pos ((hsame n).trans hused)] at hc
    subst hc
    have hcounts : Accounted (Finset.Ico 1 s.maxPhysPage) rangeOf (fun m => !bit main m)
        (fun r => ((s.ranges.free r).toNat : ℤ)) s.ranges.first s.ranges.last :=
      h.counts.congr fun m _ => by rw [hsame m]
    exact ⟨hcounts, h.first, h.last, h.small⟩
  obtain ⟨hlow, hhigh, hclass⟩ := hn.resolve_left hshared
  have hin := mem_Ico.mpr ⟨hlow, hhigh⟩
  have hfreed : ∀ m, (!bit main m) = (!s.used m || decide (m = n)) := by
    intro m
    simp [hmain m, hshared]
  have hbit : bit main n = false := by simp [hmain n, hshared]
  rw [if_neg (by rw [hbit]; decide)] at hc
  subst hc
  have hcounts := give_counts h hin hused hfreed
  exact ⟨hcounts, fun r => (give_bounds h hin hclass r).1,
    fun r => (give_bounds h hin hclass r).2, h.small⟩

theorem derefPhys_inv (hs : Inv s) (hmeets : Meets s (.derefPhys pAddr))
    (h : mmDerefPhys s pAddr = some t) : Inv t := by
  rw [mmDerefPhys] at h
  split_ifs at h with hbeyond hfault
  · cases h
    exact hs
  · cases h
    obtain ⟨hused, hn⟩ := hmeets.resolve_left hbeyond
    exact derefFrame_inv hs hused hn

theorem perform_counts (s : PhysMem) (c : Call) (t : PhysMem) (hs : Inv s) (hmeets : Meets s c)
    (h : perform s c = some t) : Inv t := by
  cases c with
  | allocPhysRange pages maxBits =>
    cases h
    exact allocPhysRange_inv hs pages maxBits
  | allocPhys =>
    cases h
    exact allocPhys_inv s hs
  | refPhys pAddr => exact refPhys_inv hs hmeets h
  | derefPhys pAddr => exact derefPhys_inv hs hmeets h

variable {b : Bitmap 64} {top : ℕ}

/-- The counts are right about the frames up to `j`. -/
structure Reached (b : Bitmap 64) (top j : ℕ) (c : Ranges) : Prop where
  counts : Accounted (Finset.Ico 1 top) rangeOf (fun m => !bit b m && decide (m ≤ j))
    (fun r => ((c.free r).toNat : ℤ)) c.first c.last
  first : ∀ r, c.free r ≠ 0 → c.first r ≠ 0
  first_le : ∀ r, c.first r ≤ j
  last : ∀ r, c.last r ≤ j

theorem reached_none : Reached b top 0 ⟨fun _ => 0, fun _ => 0, fun _ => 0⟩ := by
  have hnone : ∀ m ∈ Finset.Ico 1 top, (!bit b m && decide (m ≤ 0)) = false := by
    intro m hm
    have hlow := (mem_Ico.mp hm).1
    rw [decide_eq_false (by omega), Bool.and_false]
  refine ⟨⟨fun r => ?_, fun m hm hfree => ?_⟩, fun r h => absurd rfl h, fun r => le_rfl,
    fun r => le_rfl⟩
  · have hempty : freeOf (Finset.Ico 1 top) rangeOf (fun m => !bit b m && decide (m ≤ 0)) r = ∅ :=
      filter_eq_empty_iff.mpr fun m hm h => Bool.noConfusion ((hnone m hm).symm.trans h.1)
    rw [hempty]
    rfl
  · exact Bool.noConfusion ((hnone m hm).symm.trans hfree)

theorem Reached.skip {j : ℕ} {c : Ranges} (h : Reached b top j c) (hused : bit b (j + 1) = true) :
    Reached b top (j + 1) c := by
  refine ⟨h.counts.congr fun m _ => ?_, h.first, fun r => (h.first_le r).trans (le_succ j),
    fun r => (h.last r).trans (le_succ j)⟩
  by_cases hm : m = j + 1
  · simp [hm, hused]
  · have hle : m ≤ j + 1 ↔ m ≤ j := by omega
    simp [hle]

theorem meet_first (c : Ranges) (n r : ℕ) : (c.meet n).first r =
    if r = rangeOf n ∧ c.first r = 0 then n else c.first r := by
  rw [Ranges.meet]
  by_cases hr : r = rangeOf n
  · subst hr
    split_ifs with hzero <;> simp_all
  · split_ifs <;> simp_all

theorem meet_last (c : Ranges) (n r : ℕ) :
    (c.meet n).last r = if r = rangeOf n then n else c.last r :=
  update_apply ..

theorem Reached.meet {j : ℕ} {c : Ranges} (htop : top < 2 ^ 52) (h : Reached b top j c)
    (hj : j + 1 < top) (hfree : bit b (j + 1) = false) :
    Reached b top (j + 1) (c.meet (j + 1)) := by
  have hsmall : ∀ r, (c.free r).toNat < 2 ^ 52 := by
    intro r
    have hle := h.counts.num_le r
    rw [card_Ico] at hle
    omega
  have hfree' : ∀ m ∈ Finset.Ico 1 top, (!bit b m && decide (m ≤ j + 1)) =
      ((!bit b m && decide (m ≤ j)) || decide (m = j + 1)) := by
    intro m _
    by_cases hm : m = j + 1
    · simp [hm, hfree]
    · have hle : m ≤ j + 1 ↔ m ≤ j := by omega
      simp [hm, hle]
  constructor
  case counts =>
    refine h.counts.gain (mem_Ico.mpr ⟨by omega, hj⟩) (by simp) hfree'
      (toNat_plus (hsmall _)) fun m hm hfree'' => ?_
    rw [hfree' m hm, or_eq_true, decide_eq_true_eq] at hfree''
    rw [meet_first, meet_last]
    rcases hfree'' with hold | rfl
    · -- a class with free frames has its first one already
      obtain ⟨hlow, hhigh⟩ := h.counts.between m hm hold
      have hpos := h.counts.num_pos hm hold
      have hfirst := h.first (rangeOf m) fun hzero => by
        rw [hzero] at hpos
        exact absurd hpos (by decide)
      have hlast := h.last (rangeOf m)
      rw [if_neg fun hzero => hfirst hzero.2]
      refine ⟨hlow, ?_⟩
      split_ifs <;> omega
    · have hle := h.first_le (rangeOf (j + 1))
      rw [if_pos rfl]
      refine ⟨?_, le_rfl⟩
      split_ifs <;> omega
  case first =>
    intro r hr
    rw [meet_first]
    split_ifs with hzero
    · exact succ_ne_zero j
    · by_cases hclass : r = rangeOf (j + 1)
      · exact fun hfirst => hzero ⟨hclass, hfirst⟩
      · apply h.first r
        have : (c.meet (j + 1)).free r = c.free r := update_of_ne hclass _ _
        rwa [this] at hr
  case first_le =>
    intro r
    have hle := h.first_le r
    rw [meet_first]
    split_ifs <;> omega
  case last =>
    intro r
    have hle := h.last r
    rw [meet_last]
    split_ifs <;> omega

theorem countFree_reached (htop : top < 2 ^ 52) : Reached b top (top - 1) (countFree b top) := by
  have hloop : ∀ k, k ≤ top - 1 → Reached b top k ((range' 1 k).foldl
      (fun c n => if bit b n then c else c.meet n) ⟨fun _ => 0, fun _ => 0, fun _ => 0⟩) := by
    intro k hk
    induction k with
    | zero => exact reached_none
    | succ k ih =>
      rw [range'_1_concat, foldl_append, add_comm 1 k]
      have hprev := ih (by omega)
      simp only [foldl_cons, foldl_nil]
      split_ifs with hbit
      · exact hprev.skip hbit
      · exact hprev.meet htop (by omega) (eq_false_of_not_eq_true hbit)
  exact hloop (top - 1) le_rfl

theorem mmInitPhys_counts {rounds : ℕ} {m : Machine} (h : mmInitPhys rounds m = some s) :
    Inv s := by
  have hsmall := mmInitPhys_small h
  rw [mmInitPhys] at h
  split_ifs at h
  obtain ⟨boot, -, rfl⟩ := map_eq_some_iff.mp h
  have hreached := countFree_reached (b := freeStatic boot.staticPages (clearFree
    (((PhysMemModel.maxAddr m.ents / pageSize + 7) / 8 + 0xFFF) / 0x1000 * 512) boot.ents)) hsmall
  refine ⟨hreached.counts.congr fun n hn => ?_, hreached.first, hreached.last, hsmall⟩
  have hlt := (mem_Ico.mp hn).2
  rw [decide_eq_true (by omega), Bool.and_true]
  rfl

end PhysMem64Accounting
