import Acess2.FreeCounts
import Acess2.GuardedRuns
import Acess2.PhysMem64Model

/-! Soundness of `MM_AllocPhysRange` on x86_64: what the scan finds is free, what is marked is what
was found, and the super bitmap has a bit set for full words only. -/
namespace PhysMem64Range

open FreeCounts Function GuardedRuns List Option PhysMem64Model WordBitmaps

variable {s t : PhysMem} {m n i : ℕ}

theorem fullWord_iff : s.fullWord i ↔ ∀ n, n / 64 = i → s.used n = true := by
  have hones : s.mainBitmap i + 1 = 0 ↔ s.mainBitmap i = BitVec.allOnes 64 := by
    rw [add_eq_zero_iff_eq_neg]
    rfl
  rw [PhysMem.fullWord, hones, full_iff (by decide)]
  rfl

def SuperSound (s : PhysMem) : Prop := ∀ i, bit s.superBitmap i = true → s.fullWord i

theorem used_setUsed : (setUsed s n).used m = (s.used m || decide (m = n)) :=
  bit_setBit (by decide) m n

section

variable (s) (n)

theorem setReference_eq : ∃ refs, setReference s n = { s with pageReferences := refs } := by
  rw [setReference]
  split
  · exact ⟨_, rfl⟩
  · exact ⟨s.pageReferences, rfl⟩

theorem markBlock_eq : ∃ sup, markBlock s n = { s with superBitmap := sup } := by
  rw [markBlock]
  split
  · exact ⟨_, rfl⟩
  · exact ⟨s.superBitmap, rfl⟩

theorem takeFrame_eq : ∃ refs, takeFrame s n = { s with
      mainBitmap := setBit s.mainBitmap n
      pageReferences := refs
      ranges := s.ranges.take n } := by
  obtain ⟨refs, hrefs⟩ := setReference_eq (setUsed s n) n
  exact ⟨refs, by rw [takeFrame, hrefs]; rfl⟩

end

theorem used_takeFrame : (takeFrame s n).used m = (s.used m || decide (m = n)) := by
  obtain ⟨refs, h⟩ := takeFrame_eq s n
  rw [h]
  exact used_setUsed

theorem used_takeFrames (pages : ℕ) (s : PhysMem) (n : ℕ) :
    (takeFrames pages s n).used m = (s.used m || decide (n ≤ m ∧ m < n + pages)) := by
  induction pages generalizing s n with
  | zero =>
    have hnone : ¬ (n ≤ m ∧ m < n + 0) := by omega
    rw [takeFrames, decide_eq_false hnone, Bool.or_false]
  | succ pages ih =>
    rw [takeFrames, ih, used_takeFrame, Bool.or_assoc, ← Bool.decide_or]
    congr 2
    apply propext
    omega

theorem updateSuper_eq (rounds : ℕ) (s : PhysMem) (n : ℕ) :
    ∃ sup, updateSuper rounds s n = { s with superBitmap := sup } := by
  induction rounds generalizing s with
  | zero => exact ⟨s.superBitmap, rfl⟩
  | succ rounds ih =>
    obtain ⟨sup, hmark⟩ := markBlock_eq s n
    obtain ⟨sup', hupdate⟩ := ih { s with superBitmap := sup }
    exact ⟨sup', by rw [updateSuper, hmark, hupdate]⟩

theorem SuperSound.grow (h : SuperSound s) (hsuper : t.superBitmap = s.superBitmap)
    (hused : ∀ m, s.used m = true → t.used m = true) : SuperSound t := by
  intro i hi
  rw [hsuper] at hi
  rw [fullWord_iff]
  exact fun n hn => hused n (fullWord_iff.mp (h i hi) n hn)

theorem SuperSound.markBlock (h : SuperSound s) (n : ℕ) : SuperSound (markBlock s n) := by
  intro i hi
  rw [PhysMem64Model.markBlock] at hi ⊢
  split at hi
  · rename_i hfull
    rw [if_pos hfull]
    change bit (setBit s.superBitmap (n / 64)) i = true at hi
    rw [bit_setBit (by decide), Bool.or_eq_true, decide_eq_true_eq] at hi
    rcases hi with hi | rfl
    · exact h i hi
    · exact hfull
  · rename_i hfull
    rw [if_neg hfull]
    exact h i hi

theorem SuperSound.updateSuper (h : SuperSound s) (rounds n : ℕ) :
    SuperSound (updateSuper rounds s n) := by
  induction rounds generalizing s with
  | zero => exact h
  | succ rounds ih => exact ih (h.markBlock n)

theorem SuperSound.unmarkBlock (h : SuperSound s) (hsuper : t.superBitmap = s.superBitmap)
    (hused : ∀ m, m ≠ n → t.used m = s.used m) : SuperSound (unmarkBlock t n) := by
  have hother : ∀ i, i ≠ n / 64 → bit s.superBitmap i = true → t.fullWord i := by
    intro i hi hbit
    rw [fullWord_iff]
    intro m hm
    have hne : m ≠ n := fun heq => hi (heq ▸ hm.symm)
    rw [hused m hne]
    exact fullWord_iff.mp (h i hbit) m hm
  intro i hi
  rw [PhysMem64Model.unmarkBlock] at hi ⊢
  split at hi
  · rename_i hfull
    rw [if_pos hfull]
    by_cases hword : i = n / 64
    · exact hword ▸ hfull
    · exact hother i hword (hsuper ▸ hi)
  rename_i hfull
  rw [if_neg hfull]
  change bit (clearBit t.superBitmap (n / 64)) i = true at hi
  rw [bit_clearBit (by decide), Bool.and_eq_true, Bool.not_eq_true', decide_eq_false_iff_not,
    hsuper] at hi
  exact hother i hi.2 hi.1

variable {pages last lo addr nFree : ℕ}

theorem scan_spec (s : PhysMem) (pages last rounds : ℕ)
    (h : FreeRun (fun n => !s.used n) lo addr nFree) (hlast : nFree = 0 ∨ addr ≤ last + 1) :
    let r := scan s pages last rounds addr nFree
    FreeRun (fun n => !s.used n) lo r.1 r.2 ∧ (r.2 = 0 ∨ r.1 ≤ last + 1) := by
  induction rounds generalizing addr nFree with
  | zero => exact ⟨h, hlast⟩
  | succ rounds ih =>
    rw [scan]
    split_ifs with hle hsuper hword hused hpages
    · exact ih (h.skip (by omega)) (.inl rfl)
    · exact ih (h.skip (by omega)) (.inl rfl)
    · exact ih (h.skip (by omega)) (.inl rfl)
    · exact ⟨h.next (by simp [hused]), .inr (Nat.succ_le_succ hle)⟩
    · exact ih (h.next (by simp [hused])) (.inr (Nat.succ_le_succ hle))
    · exact ⟨h, hlast⟩

theorem fullSuper_used (hs : SuperSound s) (h : s.fullSuper i) (hn : n / 4096 = i) :
    s.used n = true := by
  have hones : s.superBitmap i = BitVec.allOnes 64 := by
    rw [PhysMem.fullSuper, add_eq_zero_iff_eq_neg] at h
    exact h
  have hbit := (full_iff (by decide) i).mp hones (n / 64) (by omega)
  exact fullWord_iff.mp (hs _ hbit) n rfl

theorem scan_earliest (hs : SuperSound s) (last rounds : ℕ)
    (h : Earliest (fun n => !s.used n) lo pages addr nFree) (hfew : nFree < pages) :
    Earliest (fun n => !s.used n) lo pages (scan s pages last rounds addr nFree).1
      (scan s pages last rounds addr nFree).2 := by
  induction rounds generalizing addr nFree with
  | zero => exact h
  | succ rounds ih =>
    rw [scan]
    split_ifs with hle hsuper hword hused hpages
    · refine ih (h.skip hfew (by omega) fun m hm hlt => ?_) (by omega)
      rw [fullSuper_used hs hsuper (by omega)]
      rfl
    · refine ih (h.skip hfew (by omega) fun m hm hlt => ?_) (by omega)
      rw [fullWord_iff.mp hword m (by omega)]
      rfl
    · refine ih (h.skip hfew (by omega) fun m hm hlt => ?_) (by omega)
      obtain rfl : m = addr := by omega
      rw [hused]
      rfl
    · exact h.next
    · exact ih h.next (by omega)
    · exact h

/-- The frames from `n` on are the first that are free where class `r` has free frames. -/
structure Found (s : PhysMem) (pages r n : ℕ) : Prop where
  some_free : s.ranges.free r ≠ 0
  pages_pos : pages ≠ 0
  first_le : s.ranges.first r ≤ n
  le_last : n + pages ≤ s.ranges.last r + 1
  free : ∀ m, n ≤ m → m < n + pages → s.used m = false
  earliest : SuperSound s → ∀ k, s.ranges.first r ≤ k → RunAt (fun n => !s.used n) pages k → n ≤ k

theorem mmAllocPhysRange_cases (s : PhysMem) (pages : ℕ) (maxBits : ℤ) :
    mmAllocPhysRange s pages maxBits = (0, s) ∨
      ∃ n, Found s pages (pickRange s.ranges (rangeOfBits maxBits)) n ∧
        mmAllocPhysRange s pages maxBits = (n * pageSize % 2 ^ 64,
          updateSuper (superRounds pages n) (takeFrames pages s n) n) := by
  rw [mmAllocPhysRange]
  split_ifs with hnone hfew
  · exact .inl rfl
  · exact .inl rfl
  generalize pickRange s.ranges (rangeOfBits maxBits) = r at *
  obtain ⟨hrun, hlast⟩ := scan_spec s pages (s.ranges.last r)
    (s.ranges.last r + 1 - s.ranges.first r) (freeRun_start _ (s.ranges.first r)) (.inl rfl)
  have hscan (hs : SuperSound s) := scan_earliest hs (s.ranges.last r)
    (s.ranges.last r + 1 - s.ranges.first r) (earliest_start _ (s.ranges.first r) pages)
  dsimp only
  generalize scan s pages (s.ranges.last r) (s.ranges.last r + 1 - s.ranges.first r)
    (s.ranges.first r) 0 = found at hrun hlast hscan ⊢
  obtain ⟨addr, nFree⟩ := found
  split_ifs with hfail
  · exact .inl rfl
  · obtain ⟨rfl, hpos⟩ : nFree = pages ∧ nFree ≠ 0 := by tauto
    obtain ⟨hlo, hfree⟩ := hrun
    refine .inr ⟨addr - nFree, ⟨hnone, hpos, by omega, by omega, fun m hm hlt => ?_,
      fun hs k hk hrun => ?_⟩, rfl⟩
    · exact Bool.not_eq_true' _ ▸ hfree m (by omega) (by omega)
    · have hle : addr ≤ k + nFree := hscan hs (Nat.pos_of_ne_zero hpos) k hk hrun
      omega

/-- What a call may do before it uses a frame: allocate frames, and note which reference counts
and tables there are -/
inductive Grown (s : PhysMem) : PhysMem → Prop where
  | refl : Grown s s
  | alloc {t : PhysMem} (h : Grown s t) : Grown s (mmAllocPhys t).2
  | note {t : PhysMem} (h : Grown s t) (refs : ℕ → BitVec 32) (mapped : ℕ → Bool)
      (tables : ℕ → ℕ → Bool) :
      Grown s { t with pageReferences := refs, refMapped := mapped, refTables := tables }

theorem Grown.keeps {P : PhysMem → Prop} (halloc : ∀ s, P s → P (mmAllocPhys s).2)
    (hnote : ∀ s refs mapped tables, P s →
      P { s with pageReferences := refs, refMapped := mapped, refTables := tables })
    (h : Grown s t) (hs : P s) : P t := by
  induction h with
  | refl => exact hs
  | alloc _ ih => exact halloc _ ih
  | note _ refs mapped tables ih => exact hnote _ refs mapped tables ih

theorem ensureTables_keeps {P : PhysMem → Prop} (halloc : ∀ s, P s → P (mmAllocPhys s).2)
    (hadd : ∀ s level idx, P s → P (addTable s level idx)) (block level : ℕ) (hs : P s) :
    P (ensureTables block level s).2 := by
  induction level generalizing s with
  | zero => exact hs
  | succ level ih =>
    rw [ensureTables]
    split_ifs with hthere
    · exact ih hs
    · dsimp only
      split_ifs with hfail
      · exact halloc s hs
      · exact ih (hadd _ _ _ (halloc s hs))

theorem Grown.tables (block level : ℕ) (h : Grown s t) : Grown s (ensureTables block level t).2 :=
  ensureTables_keeps (fun _ h => h.alloc) (fun _ _ _ h => h.note _ _ _) block level h

variable {ok : Bool}

theorem mmAllocate_grown {block : ℕ} (h : mmAllocate s block = some (ok, t)) :
    Grown s t ∨ (ok = false ∧ ∃ u ret, Grown s u ∧ mmDerefPhys u ret = some t) := by
  have hgrown : Grown s (ensureTables block 3 s).2 := Grown.refl.tables block 3
  rw [mmAllocate] at h
  dsimp only at h
  split_ifs at h with hzero hok
  · cases h
    exact .inl hgrown.alloc
  · cases h
    exact .inl ((hgrown.alloc.tables block 3).note _ _ _)
  · obtain ⟨u, hderef, heq⟩ := map_eq_some_iff.mp h
    cases heq
    exact .inr ⟨rfl, _, _, hgrown.alloc.tables block 3, hderef⟩

theorem fillBlock_eq (h : fillBlock s n = some t) :
    ∃ refs, t = { s with pageReferences := refs } := by
  rw [fillBlock] at h
  split_ifs at h
  exact ⟨_, (some.inj h).symm⟩

theorem needReference_grown (h : needReference s n = some (ok, t)) :
    Grown s t ∨ (ok = false ∧ ∃ u ret, Grown s u ∧ mmDerefPhys u ret = some t) := by
  rw [needReference] at h
  split_ifs at h with hcounted
  · cases h
    exact .inl .refl
  obtain ⟨⟨allocated, u⟩, halloc, hfill⟩ := bind_eq_some_iff.mp h
  cases allocated with
  | false =>
    cases hfill
    exact mmAllocate_grown halloc
  | true =>
    obtain ⟨v, hblock, heq⟩ := map_eq_some_iff.mp hfill
    cases heq
    obtain ⟨refs, rfl⟩ := fillBlock_eq hblock
    rcases mmAllocate_grown halloc with hgrown | ⟨hfalse, -⟩
    · exact .inl (hgrown.note refs _ _)
    · cases hfalse

theorem mmRefPhys_cases {pAddr : ℕ} (h : mmRefPhys s pAddr = some t) :
    Grown s t ∨ (∃ u ret, Grown s u ∧ mmDerefPhys u ret = some t) ∨
      (s.used (pAddr / pageSize) = false ∧ t = setReference
        (markBlock (setUsed s (pAddr / pageSize)) (pAddr / pageSize)) (pAddr / pageSize)) := by
  rw [mmRefPhys] at h
  split_ifs at h with hbeyond hfault hused
  · cases h
    exact .inl .refl
  · obtain ⟨⟨ok, u⟩, hneed, heq⟩ := map_eq_some_iff.mp h
    cases ok with
    | false =>
      obtain rfl : u = t := heq
      exact (needReference_grown hneed).imp_right fun h => .inl h.2
    | true =>
      obtain rfl : addReference u (pAddr / pageSize) = t := heq
      rcases needReference_grown hneed with hgrown | ⟨hfalse, -⟩
      · exact .inl (hgrown.note _ _ _)
      · cases hfalse
  · exact .inr (.inr ⟨Bool.eq_false_of_not_eq_true hused, (some.inj h).symm⟩)

section

variable (s) (n)

def Shared : Prop :=
  s.counted n = true ∧ s.pageReferences n ≠ 1

instance : Decidable (Shared s n) :=
  inferInstanceAs (Decidable (_ ∧ _))

theorem dropReference_eq :
    ∃ main refs, dropReference s n = { s with mainBitmap := main, pageReferences := refs } ∧
      ∀ m, bit main m = (s.used m && !decide (m = n ∧ ¬ Shared s n)) := by
  have hclear : ∀ m, bit (clearBit s.mainBitmap n) m = (s.used m && !decide (m = n)) :=
    fun m => bit_clearBit (by decide) m n
  have hlast : update s.pageReferences n (s.pageReferences n - 1) n = 0 ↔
      s.pageReferences n = 1 := by
    rw [update_self, sub_eq_zero]
  rw [dropReference]
  dsimp only
  split_ifs with hcounted hzero
  · have hfree : ¬ Shared s n := fun h => h.2 (hlast.mp hzero)
    exact ⟨_, _, rfl, by simp only [hfree, hclear, not_false_eq_true, and_true, implies_true]⟩
  · have hshared : Shared s n := ⟨hcounted, mt hlast.mpr hzero⟩
    exact ⟨_, _, rfl, by simp [hshared, PhysMem.used]⟩
  · have hfree : ¬ Shared s n := fun h => hcounted h.1
    exact ⟨_, s.pageReferences, rfl,
      by simp only [hfree, hclear, not_false_eq_true, and_true, implies_true]⟩

theorem unmarkBlock_eq : ∃ sup, unmarkBlock s n = { s with superBitmap := sup } := by
  rw [unmarkBlock]
  split
  · exact ⟨s.superBitmap, rfl⟩
  · exact ⟨_, rfl⟩

theorem derefFrame_eq : ∃ main refs c, derefFrame s n =
        unmarkBlock { s with mainBitmap := main, pageReferences := refs, ranges := c } n ∧
      (∀ m, bit main m = (s.used m && !decide (m = n ∧ ¬ Shared s n))) ∧
      c = if bit main n = true then s.ranges else s.ranges.give n := by
  obtain ⟨main, refs, hdrop, hused⟩ := dropReference_eq s n
  refine ⟨main, refs, _, ?_, hused, rfl⟩
  by_cases hbit : bit main n = true
  · simp only [derefFrame, hdrop, PhysMem.used, hbit, if_true]
  · simp only [derefFrame, hdrop, PhysMem.used, hbit, Bool.false_eq_true, if_false]

end

theorem takeFrames_eq (pages : ℕ) (s : PhysMem) (n : ℕ) : ∃ main refs c, takeFrames pages s n =
        { s with mainBitmap := main, pageReferences := refs, ranges := c } ∧
      c.last = s.ranges.last := by
  induction pages generalizing s n with
  | zero => exact ⟨s.mainBitmap, s.pageReferences, s.ranges, rfl, rfl⟩
  | succ pages ih =>
    obtain ⟨refs, hframe⟩ := takeFrame_eq s n
    obtain ⟨main', refs', c, hframes, hlast⟩ := ih (takeFrame s n) (n + 1)
    refine ⟨main', refs', c, ?_, ?_⟩
    · rw [takeFrames, hframes, hframe]
    · rw [hlast, hframe]
      rfl

variable {P : ℕ → ℕ → Prop} {top : ℕ}

/-- `P` is known of each class and its last free frame, and `top` is `giMaxPhysPage`. -/
structure Inv (P : ℕ → ℕ → Prop) (top : ℕ) (s : PhysMem) : Prop where
  sound : SuperSound s
  last : ∀ r, P r (s.ranges.last r)
  max : s.maxPhysPage = top

theorem allocPhysRange_inv (h : Inv P top s) (pages : ℕ) (maxBits : ℤ) :
    Inv P top (mmAllocPhysRange s pages maxBits).2 := by
  rcases mmAllocPhysRange_cases s pages maxBits with heq | ⟨n, hfound, heq⟩
  · rw [heq]
    exact h
  rw [heq]
  obtain ⟨main, refs, c, hframes, hlast⟩ := takeFrames_eq pages s n
  obtain ⟨sup, hsuper⟩ := updateSuper_eq (superRounds pages n) (takeFrames pages s n) n
  constructor
  case sound =>
    refine SuperSound.updateSuper (h.sound.grow ?_ fun m hm => ?_) _ n
    · rw [hframes]
    · rw [used_takeFrames, hm, Bool.true_or]
  case last =>
    intro r
    rw [hsuper, hframes]
    exact hlast ▸ h.last r
  case max =>
    rw [hsuper, hframes]
    exact h.max

theorem allocPhys_inv (s : PhysMem) (h : Inv P top s) : Inv P top (mmAllocPhys s).2 := by
  rw [mmAllocPhys]
  split
  · exact { h with }
  · exact allocPhysRange_inv h 1 (-1)

theorem give_last {c : Ranges} (hc : ∀ r, P r (c.last r)) (hn : P (rangeOf n) n) (r : ℕ) :
    P r ((c.give n).last r) := by
  rw [Ranges.give]
  dsimp only
  split_ifs
  · by_cases hr : r = rangeOf n
    · rw [hr, update_self]
      exact hn
    · rw [update_of_ne hr]
      exact hc r
  · exact hc r

theorem derefFrame_inv (h : Inv P top s) (hn : P (rangeOf n) n) : Inv P top (derefFrame s n) := by
  obtain ⟨main, refs, c, heq, hused, hc⟩ := derefFrame_eq s n
  have hlast : ∀ r, P r (c.last r) := by
    rw [hc]
    split_ifs
    · exact h.last
    · exact give_last h.last hn
  have hother : ∀ m, m ≠ n → bit main m = s.used m := by
    intro m hm
    simp [hused m, hm]
  obtain ⟨sup, hsuper⟩ :=
    unmarkBlock_eq { s with mainBitmap := main, pageReferences := refs, ranges := c } n
  rw [heq]
  constructor
  case sound => exact h.sound.unmarkBlock rfl hother
  case last =>
    rw [hsuper]
    exact hlast
  case max =>
    rw [hsuper]
    exact h.max

section Frames

variable (hP : ∀ n, n ≤ top → P (rangeOf n) n)
include hP

variable {pAddr : ℕ}

theorem derefPhys_inv (h : Inv P top s) (ht : mmDerefPhys s pAddr = some t) : Inv P top t := by
  rw [mmDerefPhys] at ht
  split_ifs at ht with hbeyond hfault
  · cases ht
    exact h
  · cases ht
    exact derefFrame_inv h (hP _ (h.max ▸ Nat.le_of_not_lt hbeyond))

omit hP in
theorem Grown.inv (h : Grown s t) (hs : Inv P top s) : Inv P top t :=
  h.keeps allocPhys_inv (fun _ _ _ _ h => { h with }) hs

omit hP in
theorem refFree_inv (h : Inv P top s) (n : ℕ) :
    Inv P top (setReference (markBlock (setUsed s n) n) n) := by
  have hused : SuperSound (setUsed s n) := by
    refine h.sound.grow rfl fun m hm => ?_
    rw [used_setUsed, hm, Bool.true_or]
  obtain ⟨refs, hrefs⟩ := setReference_eq (markBlock (setUsed s n) n) n
  obtain ⟨sup, hsuper⟩ := markBlock_eq (setUsed s n) n
  rw [hrefs]
  constructor
  case sound => exact hused.markBlock n
  case last =>
    rw [hsuper]
    exact h.last
  case max =>
    rw [hsuper]
    exact h.max

theorem refPhys_inv (h : Inv P top s) (ht : mmRefPhys s pAddr = some t) : Inv P top t := by
  rcases mmRefPhys_cases ht with hgrown | ⟨u, ret, hgrown, hderef⟩ | ⟨hfree, rfl⟩
  · exact hgrown.inv h
  · exact derefPhys_inv hP (hgrown.inv h) hderef
  · exact refFree_inv h _

theorem perform_inv (s : PhysMem) (c : Call) (t : PhysMem) (h : Inv P top s)
    (ht : perform s c = some t) : Inv P top t := by
  cases c with
  | allocPhysRange pages maxBits =>
    cases ht
    exact allocPhysRange_inv h pages maxBits
  | allocPhys =>
    cases ht
    exact allocPhys_inv s h
  | refPhys pAddr => exact refPhys_inv hP h ht
  | derefPhys pAddr => exact derefPhys_inv hP h ht

end Frames

theorem fillSuper_full (b : Bitmap 64) (words i : ℕ) (h : bit (fillSuper b words) i = true) :
    b i + 1 = 0 := by
  revert h
  rw [fillSuper]
  refine foldlRecOn (motive := fun sup => bit sup i = true → b i + 1 = 0) _ _ ?_ ?_
  · rw [bit_zero]
    exact fun h => absurd h (by decide)
  · intro sup ih j _ h
    split_ifs at h with hfull
    · rw [bit_setBit (by decide), Bool.or_eq_true, decide_eq_true_eq] at h
      rcases h with h | rfl
      · exact ih h
      · exact hfull
    · exact ih h

theorem maxAddr_lt (ents : List PhysMemModel.PMemMapEnt) : PhysMemModel.maxAddr ents < 2 ^ 64 := by
  rw [PhysMemModel.maxAddr]
  refine foldlRecOn (motive := fun top => top < 2 ^ 64) _ _ (by decide) ?_
  intro top htop ent _
  split_ifs
  · exact Nat.mod_lt _ (by decide)
  · exact htop
  · exact htop

theorem countFree_last (hP : ∀ n, n ≤ top → P (rangeOf n) n)
    (hzero : ∀ r, P r 0) (b : Bitmap 64) (r : ℕ) : P r ((countFree b top).last r) := by
  rw [countFree]
  refine foldlRecOn (motive := fun c : Ranges => P r (c.last r)) _ _ (hzero r) ?_
  intro c hc n hn
  have hlt : n ≤ top := by
    have := mem_range'_1.mp hn
    omega
  split_ifs
  · exact hc
  change P r (update c.last (rangeOf n) n r)
  by_cases hr : r = rangeOf n
  · rw [hr, update_self]
    exact hP n hlt
  · rw [update_of_ne hr]
    exact hc

variable {rounds : ℕ} {m : Machine}

theorem mmInitPhys_inv (h : mmInitPhys rounds m = some s)
    (hP : ∀ n, n ≤ s.maxPhysPage → P (rangeOf n) n) (hzero : ∀ r, P r 0) :
    Inv P s.maxPhysPage s := by
  rw [mmInitPhys] at h
  split_ifs at h
  obtain ⟨boot, hboot, rfl⟩ := map_eq_some_iff.mp h
  exact ⟨fun i hi => fillSuper_full _ _ i hi, countFree_last hP hzero _, rfl⟩

theorem mmInitPhys_small (h : mmInitPhys rounds m = some s) : s.maxPhysPage < 2 ^ 52 := by
  rw [mmInitPhys] at h
  split_ifs at h
  obtain ⟨boot, hboot, rfl⟩ := map_eq_some_iff.mp h
  exact Nat.div_lt_of_lt_mul (maxAddr_lt m.ents)

/-- A non-zero result of `MM_AllocPhysRange` is the address of `pages` frames that were free; they
alone become used, and a set bit of the super bitmap means a full word. -/
theorem allocPhysRange_takes_free_frames (rounds : ℕ) (m : Machine) (s₀ : PhysMem)
    (hinit : mmInitPhys rounds m = some s₀) (calls : List Call) (s : PhysMem)
    (hrun : run perform s₀ calls = some s) (pages : ℕ) (maxBits : ℤ) :
    SuperSound s ∧ SuperSound (mmAllocPhysRange s pages maxBits).2 ∧
      ((mmAllocPhysRange s pages maxBits).1 ≠ 0 →
        ∃ n, (mmAllocPhysRange s pages maxBits).1 = n * pageSize ∧
          (∀ i, i < pages → s.used (n + i) = false) ∧
          ∀ k, (mmAllocPhysRange s pages maxBits).2.used k =
            (s.used k || decide (n ≤ k ∧ k < n + pages))) := by
  have hs : Inv (fun _ n => n ≤ s₀.maxPhysPage) s₀.maxPhysPage s :=
    run_preserves (perform_inv fun _ hn => hn)
      (mmInitPhys_inv hinit (fun _ hn => hn) fun _ => Nat.zero_le _) hrun
  refine ⟨hs.sound, (allocPhysRange_inv hs pages maxBits).sound, fun hret => ?_⟩
  rcases mmAllocPhysRange_cases s pages maxBits with heq | ⟨n, hfound, heq⟩
  · rw [heq] at hret
    exact absurd rfl hret
  obtain ⟨sup, hsuper⟩ := updateSuper_eq (superRounds pages n) (takeFrames pages s n) n
  have hlast := hfound.le_last
  have hpos := hfound.pages_pos
  have htop := hs.last (pickRange s.ranges (rangeOfBits maxBits))
  have hsmall := mmInitPhys_small hinit
  refine ⟨n, ?_, fun i hi => hfound.free _ (by omega) (by omega), fun k => ?_⟩
  · rw [heq]
    apply Nat.mod_eq_of_lt
    rw [pageSize]
    omega
  · rw [heq, hsuper]
    exact used_takeFrames pages s n

def sampleMachine : Machine :=
  ⟨[⟨0x1000, 0xF000, .free⟩], fun _ _ => true, fun _ => 0⟩

def sampleCalls : List Call :=
  [.allocPhysRange 3 (-1), .derefPhys 0x8000, .refPhys 0x9000]

theorem sample_range_was_free :
    ∃ s₀ s, mmInitPhys 100 sampleMachine = some s₀ ∧ run perform s₀ sampleCalls = some s ∧
      ∃ n, 0xA000 = n * pageSize ∧ ∀ i, i < 2 → s.used (n + i) = false := by
  have heval : ((mmInitPhys 100 sampleMachine).bind fun s₀ => (run perform s₀ sampleCalls).map
      fun s => (mmAllocPhysRange s 2 (-1)).1) = some 0xA000 := by decide +kernel
  obtain ⟨s₀, hinit, heval⟩ := bind_eq_some_iff.mp heval
  obtain ⟨s, hrun, hret⟩ := map_eq_some_iff.mp heval
  obtain ⟨-, -, htaken⟩ := allocPhysRange_takes_free_frames 100 sampleMachine s₀ hinit sampleCalls s
    hrun 2 (-1)
  rw [hret] at htaken
  obtain ⟨n, hn, hfree, -⟩ := htaken (by decide)
  exact ⟨s₀, s, hinit, hrun, n, hn, hfree⟩

end PhysMem64Range
