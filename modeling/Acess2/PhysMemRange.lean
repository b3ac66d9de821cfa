import Acess2.PhysMemFrames

/-! Physical ranges (`MM_AllocPhysRange`).
The search steps below the last accepted page before it stops, so the marking starts one page
too low and the address, taken from where the marking ends, is that of the one page of the
found run that is not marked. -/
namespace PhysMemRange

open Option PhysMemFrames PhysMemModel WordBitmaps Nat BitVec

def pos (n : ℕ) : Position := ⟨(n / 32 : ℕ), n % 32⟩

theorem pos_down_zero : (pos 0).down = ⟨-1, 31⟩ := rfl

theorem pos_down (n : ℕ) : (pos (n + 1)).down = pos n := by
  unfold Position.down pos
  split
  case isTrue h =>
    have hdiv : (n + 1) / 32 = n / 32 + 1 := by simp only at h; omega
    have hmod : n % 32 = 31 := by simp only at h; omega
    simp [hdiv, hmod]
  case isFalse h =>
    have hdiv : (n + 1) / 32 = n / 32 := by simp only at h; omega
    have hmod : (n + 1) % 32 - 1 = n % 32 := by simp only at h; omega
    simp [hdiv, hmod]

theorem pos_up (n : ℕ) : (pos n).up = pos (n + 1) := by
  unfold Position.up pos
  split
  case isTrue h =>
    have hdiv : (n + 1) / 32 = n / 32 + 1 := by simp only at h; omega
    have hmod : (n + 1) % 32 = 0 := by simp only at h; omega
    simp [hdiv, hmod]
  case isFalse h =>
    have hdiv : (n + 1) / 32 = n / 32 := by simp only at h; omega
    have hmod : (n + 1) % 32 = n % 32 + 1 := by simp only at h; omega
    simp [hdiv, hmod]

theorem pos_inside (n : ℕ) : ¬ (pos n).idx < 0 := Int.not_lt.mpr (Int.natCast_nonneg _)

variable {s s' : PhysMem} {n t pages maxBits : ℕ}

theorem readWord_pos (hn : n < 2 ^ 20) : readWord s (pos n).idx = some (s.pageBitmap (n / 32)) := by
  have hidx : (pos n).idx = (n / 32 : ℕ) := rfl
  rw [readWord, if_pos (by omega), hidx, Int.toNat_natCast]

theorem readWord_below {idx : ℤ} (h : idx < 0) : readWord s idx = none := by
  rw [readWord, if_neg (by omega)]

theorem findFree_below (rounds : ℕ) {p : Position} (h : p.idx < 0) :
    findFree s rounds p = none := by
  cases rounds with
  | zero => rfl
  | succ rounds => simp [findFree, readWord_below h]

theorem skip_pos (h : 32 ≤ n) : (⟨(pos n).idx - 1, 31⟩ : Position) = pos (32 * (n / 32) - 1) := by
  have hdiv : (32 * (n / 32) - 1) / 32 = n / 32 - 1 := by omega
  have hmod : (32 * (n / 32) - 1) % 32 = 31 := by omega
  have hle : 1 ≤ n / 32 := by omega
  simp [pos, hdiv, hmod, cast_sub hle]

theorem findFree_pos (hn : n < 2 ^ 20) (rounds : ℕ) : findFree s (rounds + 1) (pos n) =
      if s.fullWord (n / 32) then findFree s rounds ⟨(pos n).idx - 1, 31⟩
      else if s.used n then
        if (pos n).down.idx < 0 then some (pos n).down else findFree s rounds (pos n).down
      else some (pos n) := by
  rw [findFree, readWord_pos hn]
  rfl

def Found (s : PhysMem) (n : ℕ) (p : Option Position) : Prop :=
  (∃ m ≤ n, p = some (pos m) ∧ s.used m = false ∧ ∀ k, m < k → k ≤ n → s.used k = true) ∨
    ((∀ m ≤ n, s.used m = true) ∧ ∀ q, p = some q → q.idx < 0)

theorem Found.mono {p : Option Position} (h : Found s t p) (hn : t ≤ n)
    (hused : ∀ k, t < k → k ≤ n → s.used k = true) : Found s n p := by
  rcases h with ⟨m, hm, hp, hfree, habove⟩ | ⟨hall, hp⟩
  · refine .inl ⟨m, hm.trans hn, hp, hfree, fun k hmk hkn => ?_⟩
    exact (le_or_gt k t).elim (habove k hmk) fun h => hused k h hkn
  · exact .inr ⟨fun k hkn => (le_or_gt k t).elim (hall k) fun h => hused k h hkn, hp⟩

theorem findFree_spec (hn : n < 2 ^ 20) {rounds : ℕ} (hrounds : n < rounds) :
    Found s n (findFree s rounds (pos n)) := by
  induction n using Nat.strong_induction_on generalizing rounds with
  | _ n ih =>
    obtain ⟨rounds, rfl⟩ : ∃ r, rounds = r + 1 := ⟨rounds - 1, by omega⟩
    rw [findFree_pos hn]
    by_cases hfull : s.fullWord (n / 32)
    · rw [if_pos hfull]
      have hused : ∀ k, k / 32 = n / 32 → s.used k = true := (full_iff (by omega) _).mp hfull
      by_cases hlow : n < 32
      · right
        constructor
        · intro m hm
          exact hused m (by omega)
        · intro q hq
          have hidx : (pos n).idx - 1 < 0 := by
            have hzero : n / 32 = 0 := by omega
            simp [pos, hzero]
          rw [findFree_below rounds hidx] at hq
          cases hq
      · rw [skip_pos (by omega)]
        refine (ih (32 * (n / 32) - 1) (by omega) (by omega) (by omega)).mono (by omega) ?_
        exact fun k hk hkn => hused k (by omega)
    rw [if_neg hfull]
    cases hu : s.used n with
    | false =>
      left
      exact ⟨n, le_rfl, rfl, hu, fun k hk hkn => absurd hkn (by omega)⟩
    | true =>
      cases n with
      | zero =>
        right
        constructor
        · intro m hm
          rw [le_zero.mp hm]
          exact hu
        · intro q hq
          cases hq
          decide
      | succ n =>
        rw [pos_down, if_neg (pos_inside n)]
        refine (ih n (by omega) (by omega) (by omega)).mono (le_succ n) fun k hk hkn => ?_
        rwa [le_antisymm hkn hk]

/-- The `pages` frames up to `t` are free, and there is one more frame below them. -/
def Run (s : PhysMem) (pages t : ℕ) : Prop :=
  pages ≤ t ∧ ∀ k, t < k + pages → k ≤ t → s.used k = false

theorem checkRange_pos (hn : n < 2 ^ 20) (left : ℕ) : checkRange s (left + 1) (pos n) =
      if s.used n then some (left + 1, pos n)
      else if (pos n).down.idx < 0 then some (left + 1, (pos n).down)
      else checkRange s left (pos n).down := by
  rw [checkRange, readWord_pos hn]
  rfl

theorem checkRange_spec (hn : n < 2 ^ 20) (left : ℕ) :
    (Run s left n ∧ checkRange s left (pos n) = some (0, pos (n - left))) ∨
    (∃ j k, k ≤ n ∧ n < k + left ∧ s.used k = true ∧
      checkRange s left (pos n) = some (j + 1, pos k)) ∨
    (n < left ∧ ∃ j q, q.idx < 0 ∧ checkRange s left (pos n) = some (j + 1, q)) := by
  induction left generalizing n with
  | zero =>
    left
    exact ⟨⟨zero_le n, fun k hk hkn => absurd hkn (by omega)⟩, rfl⟩
  | succ left ih =>
    rw [checkRange_pos hn]
    cases hu : s.used n with
    | true => exact .inr (.inl ⟨left, n, le_rfl, by omega, hu, rfl⟩)
    | false =>
      rw [if_neg (by decide)]
      cases n with
      | zero =>
        rw [pos_down_zero, if_pos (by decide)]
        exact .inr (.inr ⟨by omega, left, _, by decide, rfl⟩)
      | succ n =>
        rw [pos_down, if_neg (pos_inside n)]
        rcases ih (n := n) (by omega) with ⟨⟨hle, hfree⟩, heq⟩ | ⟨j, k, hkn, hk, hused, heq⟩ | hout
        · left
          refine ⟨⟨by omega, ?_⟩, by rw [heq, Nat.add_sub_add_right]⟩
          intro k hk hkn
          rcases le_succ_iff.mp hkn with hle | rfl
          · exact hfree k (by omega) hle
          · exact hu
        · exact .inr (.inl ⟨j, k, by omega, by omega, hused, heq⟩)
        · obtain ⟨hlt, hout⟩ := hout
          exact .inr (.inr ⟨by omega, hout⟩)

theorem searchRange_pos (rounds : ℕ) : searchRange s pages (rounds + 1) (pos n) =
      (findFree s (rounds + 1) (pos n)).bind fun p =>
        if p.idx < 0 then some p
        else (checkRange s pages p).bind fun (left, p) =>
            if left = 0 then some p else searchRange s pages rounds p := by
  rw [searchRange, if_neg (pos_inside n)]

/-- The search ends `pages` below the top of a run of free frames, or finds that there is none. -/
theorem searchRange_spec (hpages : 1 ≤ pages) (hn : n < 2 ^ 20) {rounds : ℕ}
    (hrounds : n < rounds) :
    (∃ t ≤ n, Run s pages t ∧ searchRange s pages rounds (pos n) = some (pos (t - pages))) ∨
    ((∀ t ≤ n, ¬ Run s pages t) ∧
      ∀ q, searchRange s pages rounds (pos n) = some q → q.idx < 0) := by
  induction n using Nat.strong_induction_on generalizing rounds with
  | _ n ih =>
    obtain ⟨rounds, rfl⟩ : ∃ r, rounds = r + 1 := ⟨rounds - 1, by omega⟩
    rw [searchRange_pos]
    rcases findFree_spec hn hrounds with ⟨m, hm, hfind, hfree, habove⟩ | ⟨hall, hnone⟩
    · rw [hfind, bind_some, if_neg (pos_inside m)]
      -- above `m` no run can end: its top frame is used
      have hskip : ∀ t ≤ n, Run s pages t → t ≤ m := by
        intro t ht hrun
        by_contra hmt
        have hused := habove t (by omega) ht
        have hfree := hrun.2 t (by omega) le_rfl
        simp [hfree] at hused
      rcases checkRange_spec (by omega : m < 2 ^ 20) pages with
        ⟨hrun, hcheck⟩ | ⟨j, k, hkm, hk, hused, hcheck⟩ | ⟨hlow, j, q, hq, hcheck⟩
      · rw [hcheck]
        exact .inl ⟨m, hm, hrun, rfl⟩
      · rw [hcheck, bind_some]
        have hkm : k < m := by
          rcases lt_or_eq_of_le hkm with hlt | rfl
          · exact hlt
          · simp [hfree] at hused
        -- a run that ends between `k` and `m` would hold the used frame `k`
        have hskip : ∀ t ≤ n, Run s pages t → t ≤ k := by
          intro t ht hrun
          have htm := hskip t ht hrun
          by_contra hkt
          have hfree := hrun.2 k (by omega) (by omega)
          simp [hfree] at hused
        rcases ih k (by omega) (by omega) (show k < rounds by omega) with
          ⟨t, ht, hrun, hsearch⟩ | ⟨hnorun, hnone⟩
        · exact .inl ⟨t, by omega, hrun, hsearch⟩
        · exact .inr ⟨fun t ht hrun => hnorun t (hskip t ht hrun) hrun, hnone⟩
      · rw [hcheck, bind_some]
        dsimp only
        right
        constructor
        · intro t ht hrun
          have htm := hskip t ht hrun
          have hpages := hrun.1
          omega
        · intro r hr
          cases rounds with
          | zero => cases hr
          | succ rounds =>
            rw [searchRange, if_pos hq] at hr
            cases hr
            exact hq
    · right
      constructor
      · intro t ht hrun
        have hfree := hrun.2 t (by omega) le_rfl
        simp [hall t ht] at hfree
      · intro q hq
        obtain ⟨p, hp, hq⟩ := bind_eq_some_iff.mp hq
        have hneg := hnone p hp
        rw [if_pos hneg] at hq
        cases hq
        exact hneg

theorem markRange_pos (pages n : ℕ) : markRange (pages + 1) s (pos n) =
      markRange pages (setUsed (setReference s n) n) (pos (n + 1)) := by
  have hframe : (pos n).idx.toNat * 32 + (pos n).sidx = n := by
    show n / 32 * 32 + n % 32 = n
    omega
  rw [markRange, hframe, pos_up]

theorem markRange_spec (pages n : ℕ) : (markRange pages s (pos n)).2 = pos (n + pages) ∧
    (∀ m, (markRange pages s (pos n)).1.used m = (s.used m || decide (n ≤ m ∧ m < n + pages))) ∧
    (markRange pages s (pos n)).1.physAlloc = s.physAlloc + BitVec.ofNat 64 pages := by
  induction pages generalizing s n with
  | zero =>
    refine ⟨rfl, ?_, by simp [markRange]⟩
    intro m
    simp [markRange]
  | succ pages ih =>
    rw [markRange_pos]
    obtain ⟨hpos, hused, halloc⟩ := ih (s := setUsed (setReference s n) n) (n + 1)
    refine ⟨by rw [hpos, add_right_comm, add_assoc], ?_, ?_⟩
    · intro m
      rw [hused m, setUsed_used, setReference_keeps.1, Bool.or_assoc, ← Bool.decide_or]
      congr 2
      apply propext
      constructor <;> omega
    · rw [halloc]
      show (setReference s n).physAlloc + 1 + _ = _
      rw [setReference_keeps.2.2.2.2.2, add_assoc, ofNat_add, add_comm 1 _]
      rfl

theorem pos_address (ht : t < 2 ^ 20) :
    ((pos t).idx.toNat * 2 ^ 17 ||| (pos t).sidx * 2 ^ 12) % 2 ^ 32 = t * pageSize := by
  have hlow : t % 32 * 2 ^ 12 < 2 ^ 17 := by omega
  show (t / 32 * 2 ^ 17 ||| t % 32 * 2 ^ 12) % 2 ^ 32 = t * 4096
  rw [mul_comm (t / 32), ← two_pow_add_eq_or_of_lt hlow]
  omega

theorem mmAllocPhysRange_spec (hpages : 1 ≤ pages) (hstart : rangeStart s maxBits < 2 ^ 20) :
    (∃ t ≤ rangeStart s maxBits, Run s pages t ∧ ∃ s',
      mmAllocPhysRange s pages maxBits = some (t * pageSize, s') ∧
      (∀ m, s'.used m = (s.used m || decide (t - pages ≤ m ∧ m < t))) ∧
      s'.physAlloc = s.physAlloc + BitVec.ofNat 64 pages) ∨
    ((∀ t ≤ rangeStart s maxBits, ¬ Run s pages t) ∧
      ∀ r s', mmAllocPhysRange s pages maxBits = some (r, s') → r = 0) := by
  unfold mmAllocPhysRange
  rcases searchRange_spec (s := s) hpages hstart (Nat.lt_add_of_pos_right (by decide : 0 < 2)) with
    ⟨t, ht, hrun, hsearch⟩ | ⟨hnorun, hnone⟩
  · left
    obtain ⟨hpos, hused, halloc⟩ := markRange_spec (s := s) pages (t - pages)
    rw [Nat.sub_add_cancel hrun.1] at hpos hused
    refine ⟨t, ht, hrun,
      markBlock (markRange pages s (pos (t - pages))).1 ((pos t).idx.toNat * 32), ?_, ?_, ?_⟩
    · show (searchRange s pages _ (pos _)).bind _ = _
      rw [hsearch, bind_some, if_neg (pos_inside _)]
      dsimp only
      rw [hpos, pos_address (by omega)]
    · intro m
      rw [markBlock_keeps.1, hused m]
    · rw [markBlock_keeps.2.2.2.2.2, halloc]
  · refine .inr ⟨hnorun, ?_⟩
    intro r s' heq
    obtain ⟨p, hp, heq⟩ := bind_eq_some_iff.mp heq
    rw [if_pos (hnone p hp)] at heq
    cases heq
    rfl

theorem mmAllocPhysRange_outside (hstart : 2 ^ 20 ≤ rangeStart s maxBits) :
    mmAllocPhysRange s pages maxBits = none := by
  have hread : readWord s (pos (rangeStart s maxBits)).idx = none := by
    have hidx : (pos (rangeStart s maxBits)).idx = (rangeStart s maxBits / 32 : ℕ) := rfl
    rw [readWord, if_neg (by omega)]
  unfold mmAllocPhysRange
  show (searchRange s pages (_ + 1) (pos _)).bind _ = none
  rw [searchRange_pos, findFree, hread]
  rfl

/-- The frames of the range at address `r`: they were free, lie below the limits, and are the
ones now marked used. -/
structure RangeTaken (s : PhysMem) (pages maxBits r : ℕ) (s' : PhysMem) : Prop where
  aligned : r % pageSize = 0
  free : ∀ i < pages, s.used (r / pageSize + i) = false
  addressable : r + pages * pageSize ≤ 2 ^ maxBits
  ram : r / pageSize + pages ≤ s.pageCount
  taken : ∀ i < pages, s'.used (r / pageSize + i) = true
  others : ∀ m, m < r / pageSize ∨ r / pageSize + pages ≤ m → s'.used m = s.used m
  grown : s'.physAlloc = s.physAlloc + BitVec.ofNat 64 pages

/-- Wherever a run of free frames is in reach, its top frame is returned unmarked. -/
theorem range_taken_iff (s : PhysMem) (pages maxBits : ℕ) (hpages : 1 ≤ pages)
    (_hbits : 12 ≤ maxBits) :
    (∀ r s', mmAllocPhysRange s pages maxBits = some (r, s') → r ≠ 0 →
      RangeTaken s pages maxBits r s') ↔
    ¬ (rangeStart s maxBits < 2 ^ 20 ∧ ∃ t ≤ rangeStart s maxBits, Run s pages t) := by
  by_cases hstart : rangeStart s maxBits < 2 ^ 20
  · rcases mmAllocPhysRange_spec hpages hstart with
      ⟨t, ht, hrun, s', heq, hused, -⟩ | ⟨hnorun, hzero⟩
    · have hframe : t * pageSize / pageSize = t := Nat.mul_div_cancel t (by decide)
      have hnonzero : t * pageSize ≠ 0 := by
        have hpos := hrun.1
        simp only [pageSize]
        omega
      constructor
      · intro hright
        have htaken := (hright _ s' heq hnonzero).taken 0 hpages
        have hfree := hrun.2 t (by omega) le_rfl
        rw [hframe, add_zero, hused t, hfree] at htaken
        simp at htaken
      · intro hno
        exact absurd ⟨hstart, t, ht, hrun⟩ hno
    · constructor
      · rintro - ⟨-, t, ht, hrun⟩
        exact hnorun t ht hrun
      · intro _ r s' heq hr
        exact absurd (hzero r s' heq) hr
  · constructor
    · rintro - ⟨hlt, -⟩
      exact hstart hlt
    · intro _ r s' heq
      rw [mmAllocPhysRange_outside (by omega)] at heq
      cases heq

def sampleMap : List PMemMapEnt := [⟨0, 31 * 4096, .used⟩, ⟨31 * 4096, 33 * 4096, .free⟩]

def scatteredMap : List PMemMapEnt :=
  [⟨0, 4096, .used⟩, ⟨4096, 4096, .free⟩, ⟨2 * 4096, 4096, .used⟩, ⟨3 * 4096, 4096, .free⟩,
    ⟨4 * 4096, 60 * 4096, .used⟩]

/-- Where no two free frames lie together, two frames are asked for in vain. -/
theorem range_taken_scattered :
    (mmAllocPhysRange (mmInstall true scatteredMap) 2 32).map Prod.fst = some 0 ∧
    ∀ r s', mmAllocPhysRange (mmInstall true scatteredMap) 2 32 = some (r, s') → r ≠ 0 →
      RangeTaken (mmInstall true scatteredMap) 2 32 r s' := by
  constructor
  · decide +kernel
  · refine (range_taken_iff _ 2 32 (by decide) (by decide)).mpr ?_
    rintro ⟨-, t, ht, hlow, hfree⟩
    have hused : ∀ t < 64, 0 < t → (mmInstall true scatteredMap).used t = true ∨
        (mmInstall true scatteredMap).used (t - 1) = true := by
      decide +kernel
    have hlast : rangeStart (mmInstall true scatteredMap) 32 = 63 := by decide +kernel
    rcases hused t (by omega) (by omega) with htop | hnext
    · rw [hfree t (by omega) le_rfl] at htop
      cases htop
    · rw [hfree (t - 1) (by omega) (by omega)] at hnext
      cases hnext

/-- Three frames are asked for; frame 63 is returned and stays free, and the frames 60 to 62
below it are marked. -/
theorem range_returned_unmarked :
    ∃ s', mmAllocPhysRange (mmInstall true sampleMap) 3 32 = some (63 * 4096, s') ∧
      s'.used 60 = true ∧ s'.used 63 = false ∧
      ¬ RangeTaken (mmInstall true sampleMap) 3 32 (63 * 4096) s' := by
  have heval : (mmAllocPhysRange (mmInstall true sampleMap) 3 32).map
      (fun q => (q.1, q.2.used 60, q.2.used 63)) = some (63 * 4096, true, false) := by
    decide +kernel
  obtain ⟨⟨r, s'⟩, heq, hpair⟩ := map_eq_some_iff.mp heval
  simp only [Prod.mk.injEq] at hpair
  obtain ⟨rfl, hlow, htop⟩ := hpair
  refine ⟨s', heq, hlow, htop, ?_⟩
  intro hright
  have htaken : s'.used 63 = true := hright.taken 0 (by decide)
  cases htop.symm.trans htaken

end PhysMemRange
