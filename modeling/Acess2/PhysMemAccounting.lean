import Acess2.PhysMem64Accounting
import Acess2.PhysMemTemplate

/-! The count of free frames on ARM, and what both allocators with such counts have in common:
`MM_RefPhys` of a free frame takes it without counting. -/
namespace PhysMemAccounting

open FreeCounts GuardedRuns Option PhysMemTemplate WordBitmaps Nat Finset
open ThreadsModel (wrap32 wrap32_eq)

section

variable (s : PhysMem)

/-- `giPhysNumFree`, `giPhysFirstFree` and `giPhysLastFree` are right about the frames other than 0
and below `giMaxPhysPage`. -/
def CountsFree : Prop :=
  Accounted (Finset.Ico 1 s.maxPhysPage) (fun _ => ()) s.free (fun _ => s.physNumFree)
    (fun _ => s.physFirstFree.toNat) (fun _ => s.physLastFree.toNat)

def Shared (n : ℕ) : Prop :=
  s.counted n = true ∧ s.pageReferences n ≠ 0 ∧ s.pageReferences n ≠ 1

instance (n : ℕ) : Decidable (Shared s n) :=
  inferInstanceAs (Decidable (_ ∧ _))

/-- A frame is referenced in use or not counted; it is dropped in use, and counted if that frees it.
-/
def Meets : Call → Prop
  | .allocPhysRange _ => True
  | .refPhys pAddr =>
    let n := pAddr / pageSize
    s.free n = false ∨ n = 0 ∨ s.maxPhysPage ≤ n
  | .derefPhys pAddr =>
    let n := pAddr / pageSize
    s.maxPhysPage < n ∨ (s.free n = false ∧ (Shared s n ∨ (1 ≤ n ∧ n < s.maxPhysPage)))

instance : DecidablePred (Meets s) := fun c => by
  cases c <;> dsimp only [Meets] <;> infer_instance

end

variable {s t : PhysMem} {n : ℕ}

structure Inv (s : PhysMem) : Prop where
  counts : CountsFree s
  first_pos : 1 ≤ s.physFirstFree
  first_le : s.physFirstFree ≤ s.maxPhysPage
  last_pos : 0 ≤ s.physLastFree
  last_le : s.physLastFree ≤ s.maxPhysPage
  above : ∀ n, s.maxPhysPage ≤ n → s.free n = false
  small : s.maxPhysPage < 2 ^ 20

theorem toU32_eq {x : ℤ} (h : 0 ≤ x) (h' : x ≤ 2 ^ 20) : toU32 x = x.toNat := by
  rw [toU32, Int.emod_eq_of_lt h (by omega)]

theorem Inv.num_bounds (h : Inv s) : 0 ≤ s.physNumFree ∧ s.physNumFree ≤ s.maxPhysPage := by
  have hle := h.counts.num_le ()
  have hcount := h.counts.count ()
  rw [card_Ico] at hle
  omega

theorem setReference_eq (s : PhysMem) (n : ℕ) :
    ∃ refs, setReference s n = { s with pageReferences := refs } := by
  rw [setReference]
  split
  · exact ⟨_, rfl⟩
  · exact ⟨s.pageReferences, rfl⟩

theorem free_setUsed (m : ℕ) : (setUsed s n).free m = (s.free m && !decide (m = n)) :=
  bit_clearBit (by decide) m n

section

variable (h : Inv s)
include h

theorem Inv.notes (refs : ℕ → BitVec 32) (mapped : ℕ → Bool) (table : Bool) :
    Inv { s with pageReferences := refs, refMapped := mapped, refTable := table } :=
  ⟨h.counts, h.first_pos, h.first_le, h.last_pos, h.last_le, h.above, h.small⟩

theorem takeFrame_eq (n : ℕ) : ∃ refs, takeFrame s n = { s with
    pageBitmaps := clearBit s.pageBitmaps n
    pageReferences := refs
    physNumFree := s.physNumFree - 1
    physFirstFree :=
      if n = s.physFirstFree.toNat then s.physFirstFree + 1 else s.physFirstFree } := by
  have hnum := h.num_bounds
  obtain ⟨-, hpos, hle, -, -, -, hsmall⟩ := h
  obtain ⟨refs, hrefs⟩ := setReference_eq { setUsed s n with
    physNumFree := wrap32 (s.physNumFree - 1)
    physFirstFree := if n = toU32 s.physFirstFree then wrap32 (s.physFirstFree + 1)
      else s.physFirstFree } n
  refine ⟨refs, hrefs.trans ?_⟩
  rw [wrap32_eq (by omega) (by omega), wrap32_eq (by omega) (by omega),
    toU32_eq (by omega) (by omega)]
  rfl

omit h in
theorem free_takeFrame (m : ℕ) : (takeFrame s n).free m = (s.free m && !decide (m = n)) := by
  obtain ⟨refs, heq⟩ := setReference_eq _ n
  rw [takeFrame, heq]
  exact free_setUsed m

theorem takeFrame_inv (hn : n ∈ Finset.Ico 1 s.maxPhysPage)
    (hfree : s.free n = true) : Inv (takeFrame s n) := by
  obtain ⟨hlow, hhigh⟩ := mem_Ico.mp hn
  have hpos := h.first_pos
  have hle := h.first_le
  have hcounts : Accounted (Finset.Ico 1 s.maxPhysPage) (fun _ => ()) (takeFrame s n).free
      (fun _ => s.physNumFree - 1)
      (fun _ => (if n = s.physFirstFree.toNat then s.physFirstFree + 1
        else s.physFirstFree).toNat) (fun _ => s.physLastFree.toNat) := by
    refine h.counts.take hn hfree (fun m _ => free_takeFrame m) (fun _ => ?_) fun _ => ?_
    · rw [if_pos rfl]
    · split_ifs with hfirst
      · exact .inr ⟨rfl, hfirst, by omega⟩
      · exact .inl rfl
  have habove : ∀ m, s.maxPhysPage ≤ m → (takeFrame s n).free m = false := by
    intro m hm
    rw [free_takeFrame, h.above m hm, Bool.false_and]
  obtain ⟨refs, heq⟩ := takeFrame_eq h n
  rw [heq] at hcounts habove ⊢
  constructor
  case counts => exact hcounts
  case first_pos =>
    dsimp only
    split_ifs <;> omega
  case first_le =>
    dsimp only
    split_ifs <;> omega
  case last_pos => exact h.last_pos
  case last_le => exact h.last_le
  case above => exact habove
  case small => exact h.small

theorem takeFrames_inv {pages : ℕ} (hlow : 1 ≤ n) (hhigh : n + pages ≤ s.maxPhysPage)
    (hfree : ∀ m, n ≤ m → m < n + pages → s.free m = true) : Inv (takeFrames pages s n) := by
  induction pages generalizing s n with
  | zero => exact h
  | succ pages ih =>
    have hn : n ∈ Finset.Ico 1 s.maxPhysPage := mem_Ico.mpr ⟨hlow, by omega⟩
    have hmax : (takeFrame s n).maxPhysPage = s.maxPhysPage := by
      obtain ⟨refs, heq⟩ := takeFrame_eq h n
      rw [heq]
    apply ih (takeFrame_inv h hn (hfree n le_rfl (by omega))) (by omega)
    · omega
    · intro m hm hlt
      rw [free_takeFrame, hfree m (by omega) (by omega), decide_eq_false (by omega)]
      rfl

omit h in
theorem scan_spec (s : PhysMem) (pages last rounds : ℕ) {lo addr nFree : ℕ}
    (h : FreeRun s.free lo addr nFree) (hlast : nFree = 0 ∨ addr ≤ last + 1) :
    let r := scan s pages last rounds addr nFree
    FreeRun s.free lo r.1 r.2 ∧ (r.2 = 0 ∨ r.1 ≤ last + 1) := by
  induction rounds generalizing addr nFree with
  | zero => exact ⟨h, hlast⟩
  | succ rounds ih =>
    rw [scan]
    split_ifs with hle hword hfree hpages
    · exact ih (h.skip (by omega)) (.inl rfl)
    · exact ⟨h.next hfree, .inr (succ_le_succ hle)⟩
    · exact ih (h.next hfree) (.inr (succ_le_succ hle))
    · exact ih (h.skip (by omega)) (.inl rfl)
    · exact ⟨h, hlast⟩

theorem mmAllocPhysRange_cases (pages : ℕ) : mmAllocPhysRange s pages = (0, s) ∨
      (mmAllocPhysRange s pages).1 ≠ 0 ∧ Inv (mmAllocPhysRange s pages).2 := by
  obtain ⟨-, hpos, hfirst, hlow, hlast, -, hsmall⟩ := id h
  rw [mmAllocPhysRange, toU32_eq (by omega) (by omega), toU32_eq (by omega) (by omega)]
  split_ifs with hfew
  · exact .inl rfl
  obtain ⟨hrun, hend⟩ := scan_spec s pages s.physLastFree.toNat
    (s.physLastFree.toNat + 1 - s.physFirstFree.toNat)
    (freeRun_start _ s.physFirstFree.toNat) (.inl rfl)
  dsimp only
  generalize scan s pages s.physLastFree.toNat
    (s.physLastFree.toNat + 1 - s.physFirstFree.toNat) s.physFirstFree.toNat 0 = found
    at hrun hend ⊢
  obtain ⟨addr, nFree⟩ := found
  split_ifs with hfail
  · exact .inl rfl
  obtain ⟨hstart, hfree⟩ := hrun
  -- the last free frame may be one too high, but frames above memory are not free
  have htop : addr ≤ s.maxPhysPage := by
    by_contra hgt
    have hnot := h.above (addr - 1) (by omega)
    rw [hfree (addr - 1) (by omega) (by omega)] at hnot
    cases hnot
  refine .inr ⟨?_, takeFrames_inv h (by omega) (by omega) fun m hm hlt =>
    hfree m (by omega) (by omega)⟩
  rw [pageSize, mod_eq_of_lt (by omega)]
  omega

theorem allocPhysRange_inv (pages : ℕ) : Inv (mmAllocPhysRange s pages).2 := by
  rcases mmAllocPhysRange_cases h pages with heq | ⟨-, hinv⟩
  · rw [heq]
    exact h
  · exact hinv

theorem mmAllocate_inv {block : ℕ} {ok : Bool}
    (ht : mmAllocate s block = some (ok, t)) : Inv t := by
  have hpage : Inv (mmAllocPhys s).2 := allocPhysRange_inv h 1
  rw [mmAllocate] at ht
  dsimp only at ht
  split_ifs at ht with hfail htable hnone
  · cases ht
    exact hpage
  · cases ht
    exact hpage.notes _ _ _
  · cases ht
    exact Inv.notes (allocPhysRange_inv hpage 1) _ _ _

theorem refFree_inv (hn : n = 0 ∨ s.maxPhysPage ≤ n) : Inv (setReference (setUsed s n) n) := by
  have hcounts : Accounted (Finset.Ico 1 s.maxPhysPage) (fun _ => ()) (setUsed s n).free
      (fun _ => s.physNumFree) (fun _ => s.physFirstFree.toNat)
      (fun _ => s.physLastFree.toNat) := by
    refine h.counts.congr fun m hm => ?_
    have hne : m ≠ n := by
      have := mem_Ico.mp hm
      omega
    rw [free_setUsed, decide_eq_false hne, Bool.not_false, Bool.and_true]
  have habove : ∀ m, s.maxPhysPage ≤ m → (setUsed s n).free m = false := by
    intro m hm
    rw [free_setUsed, h.above m hm, Bool.false_and]
  obtain ⟨refs, hrefs⟩ := setReference_eq (setUsed s n) n
  rw [hrefs]
  exact ⟨hcounts, h.first_pos, h.first_le, h.last_pos, h.last_le, habove, h.small⟩

end

variable {pAddr : ℕ}

theorem mmRefPhys_free (hn : pAddr / pageSize = n) (hmax : n < s.maxPhysPage)
    (hfree : s.free n = true) : mmRefPhys s pAddr = some (setReference (setUsed s n) n) := by
  rw [mmRefPhys, hn, if_neg (not_le.mpr hmax), hfree, if_pos rfl]

theorem refFree_breaks (h : CountsFree s) (hn : n ∈ Finset.Ico 1 s.maxPhysPage)
    (hfree : s.free n = true) : ¬ CountsFree (setReference (setUsed s n) n) := by
  obtain ⟨refs, hrefs⟩ := setReference_eq (setUsed s n) n
  rw [hrefs]
  exact h.not_uncounted hn hfree fun m _ => free_setUsed m

theorem refPhys_inv (hs : Inv s) (hmeets : Meets s (.refPhys pAddr))
    (h : mmRefPhys s pAddr = some t) : Inv t := by
  rw [mmRefPhys] at h
  split_ifs at h with hbeyond hfree hcounted
  · cases h
    exact hs
  · cases h
    refine refFree_inv hs (hmeets.resolve_left ?_)
    rw [hfree]
    decide
  · cases h
    exact hs.notes _ _ _
  obtain ⟨⟨ok, u⟩, halloc, heq⟩ := map_eq_some_iff.mp h
  have hu := mmAllocate_inv hs halloc
  cases ok with
  | false =>
    obtain rfl : u = t := heq
    exact hu
  | true =>
    obtain rfl : fillBlock u (pAddr / pageSize) = t := heq
    exact hu.notes _ _ _

theorem lessOne_eq_zero (x : BitVec 32) : lessOne x = 0 ↔ x = 0 ∨ x = 1 := by
  rw [lessOne]
  split_ifs with hzero
  · exact ⟨fun _ => .inl hzero, fun _ => rfl⟩
  · rw [sub_eq_zero]
    exact ⟨.inr, fun h => h.resolve_left hzero⟩

theorem dropReference_eq (s : PhysMem) (n : ℕ) :
    ∃ b refs, dropReference s n = { s with pageBitmaps := b, pageReferences := refs } ∧
      ∀ m, bit b m = (s.free m || decide (m = n ∧ ¬ Shared s n)) := by
  have hset : ∀ m, bit (setBit s.pageBitmaps n) m = (s.free m || decide (m = n)) :=
    fun m => bit_setBit (by decide) m n
  have hlast := lessOne_eq_zero (s.pageReferences n)
  rw [dropReference]
  dsimp only
  split_ifs with hcounted hnone
  · have hfree : ¬ Shared s n := fun h => (hlast.mp hnone).elim h.2.1 h.2.2
    exact ⟨_, _, rfl, by simp only [hfree, hset, not_false_eq_true, and_true, implies_true]⟩
  · have hshared : Shared s n :=
      ⟨hcounted, fun h => hnone (hlast.mpr (.inl h)), fun h => hnone (hlast.mpr (.inr h))⟩
    exact ⟨_, _, rfl, by simp [hshared, PhysMem.free]⟩
  · have hfree : ¬ Shared s n := fun h => hcounted h.1
    exact ⟨_, s.pageReferences, rfl,
      by simp only [hfree, hset, not_false_eq_true, and_true, implies_true]⟩

theorem giveFrame_eq (h : Inv s) (hn : n < s.maxPhysPage) (b : Bitmap 32) (refs : ℕ → BitVec 32) :
    giveFrame { s with pageBitmaps := b, pageReferences := refs } n = { s with
      pageBitmaps := b
      pageReferences := refs
      physNumFree := s.physNumFree + 1
      physFirstFree := min s.physFirstFree n
      physLastFree := max s.physLastFree n } := by
  have hnum := h.num_bounds
  obtain ⟨-, hpos, hfirst, hlow, hlast, -, hsmall⟩ := h
  have hmin : (if s.physFirstFree = -1 ∨ s.physFirstFree % 2 ^ 64 > n then wrap32 n
      else s.physFirstFree) = min s.physFirstFree n := by
    rw [Int.emod_eq_of_lt (by omega) (by omega), wrap32_eq (by omega) (by omega)]
    split_ifs <;> omega
  have hmax : (if s.physLastFree % 2 ^ 64 < n then wrap32 n else s.physLastFree) =
      max s.physLastFree n := by
    rw [Int.emod_eq_of_lt (by omega) (by omega), wrap32_eq (by omega) (by omega)]
    split_ifs <;> omega
  have hplus : wrap32 (s.physNumFree + 1) = s.physNumFree + 1 := wrap32_eq (by omega) (by omega)
  simp only [giveFrame, hplus, hmin, hmax]

theorem derefFrame_inv (h : Inv s) (hused : s.free n = false)
    (hn : Shared s n ∨ (1 ≤ n ∧ n < s.maxPhysPage)) :
    Inv (if (dropReference s n).free n then giveFrame (dropReference s n) n
      else dropReference s n) := by
  obtain ⟨b, refs, heq, hbits⟩ := dropReference_eq s n
  rw [heq]
  by_cases hshared : Shared s n
  · have hsame : ∀ m, bit b m = s.free m := by
      intro m
      simp [hbits m, hshared]
    have hstays : PhysMem.free { s with pageBitmaps := b, pageReferences := refs } n = false :=
      (hsame n).trans hused
    rw [hstays, if_neg (by decide)]
    refine ⟨h.counts.congr fun m _ => hsame m, h.first_pos, h.first_le, h.last_pos, h.last_le,
      fun m hm => (hsame m).trans (h.above m hm), h.small⟩
  obtain ⟨hlow, hhigh⟩ := hn.resolve_left hshared
  have hin := mem_Ico.mpr ⟨hlow, hhigh⟩
  have hfreed : ∀ m, bit b m = (s.free m || decide (m = n)) := by
    intro m
    simp [hbits m, hshared]
  have hgiven : PhysMem.free { s with pageBitmaps := b, pageReferences := refs } n = true := by
    simp [PhysMem.free, hfreed n]
  rw [hgiven, if_pos rfl, giveFrame_eq h hhigh]
  have hpos := h.first_pos
  have hlast' := h.last_le
  constructor
  case counts =>
    refine h.counts.give hin hused (fun m _ => hfreed m) (fun _ => by rw [if_pos rfl])
      (fun _ => ?_) ?_ (fun _ => ?_) ?_ <;> dsimp only <;> omega
  case first_pos =>
    dsimp only
    omega
  case first_le =>
    dsimp only
    omega
  case last_pos =>
    dsimp only
    omega
  case last_le =>
    dsimp only
    omega
  case above =>
    intro m hm
    have hne : m ≠ n := fun heq => absurd hhigh (not_lt.mpr (heq ▸ hm))
    simp only [PhysMem.free, hfreed m, hne, decide_false, Bool.or_false]
    exact h.above m hm
  case small => exact h.small

theorem derefPhys_inv (hs : Inv s) (hmeets : Meets s (.derefPhys pAddr)) :
    Inv (mmDerefPhys s pAddr) := by
  rw [mmDerefPhys]
  by_cases hbeyond : pAddr / pageSize > s.maxPhysPage
  · rw [if_pos hbeyond]
    exact hs
  · obtain ⟨hused, hn⟩ := hmeets.resolve_left hbeyond
    rw [if_neg hbeyond]
    exact derefFrame_inv hs hused hn

theorem perform_counts (s : PhysMem) (c : Call) (t : PhysMem) (hs : Inv s) (hmeets : Meets s c)
    (h : perform s c = some t) : Inv t := by
  cases c with
  | allocPhysRange pages =>
    cases h
    exact allocPhysRange_inv hs pages
  | refPhys pAddr => exact refPhys_inv hs hmeets h
  | derefPhys pAddr =>
    cases h
    exact derefPhys_inv hs hmeets

theorem or_empty (x : Bool) (a m : ℕ) : (x || decide (a ≤ m ∧ m < a)) = x := by
  rw [decide_eq_false (by omega), Bool.or_false]

theorem setHead_spec (b : Bitmap 32) (start len : ℕ) : start ≤ (setHead b start len).2.1 ∧
      (setHead b start len).2.1 + (setHead b start len).2.2 = start + len ∧
      ((setHead b start len).2.2 = 0 ∨ (setHead b start len).2.1 % 32 = 0) ∧
      ∀ m, bit (setHead b start len).1 m =
        (bit b m || decide (start ≤ m ∧ m < (setHead b start len).2.1)) := by
  induction len generalizing b start with
  | zero => exact ⟨le_rfl, rfl, .inl rfl, fun m => (or_empty ..).symm⟩
  | succ len ih =>
    rw [setHead]
    split_ifs with haligned
    · exact ⟨le_rfl, rfl, .inr haligned, fun m => (or_empty ..).symm⟩
    obtain ⟨hle, hsum, hend, hbits⟩ := ih (setBit b start) (start + 1)
    refine ⟨by omega, by omega, hend, fun m => ?_⟩
    rw [hbits m, bit_setBit (by decide), Bool.or_assoc, ← Bool.decide_or]
    congr 2
    apply propext
    omega

theorem setTail_bit (b : Bitmap 32) (start len m : ℕ) :
    bit (setTail b start len) m = (bit b m || decide (start ≤ m ∧ m < start + len)) := by
  induction len generalizing b start with
  | zero => exact (or_empty ..).symm
  | succ len ih =>
    rw [setTail, ih, bit_setBit (by decide), Bool.or_assoc, ← Bool.decide_or]
    congr 2
    apply propext
    omega

theorem fill_bit (b : Bitmap 32) {start len : ℕ} (h : len = 0 ∨ start % 32 = 0) (m : ℕ) :
    bit (fill b (start / 32) (len / 32) (BitVec.allOnes 32)) m =
      (bit b m || decide (start ≤ m ∧ m < start + len / 32 * 32)) := by
  have hwords : (start / 32 ≤ m / 32 ∧ m / 32 < start / 32 + len / 32) ↔
      (start ≤ m ∧ m < start + len / 32 * 32) := by omega
  rw [bit_fill, BitVec.getLsbD_allOnes, decide_eq_true (mod_lt m (by decide))]
  split_ifs with hin
  · rw [decide_eq_true (hwords.mp hin), Bool.or_true]
  · rw [decide_eq_false (mt hwords.mpr hin), Bool.or_false]

theorem setRange_bit (b : Bitmap 32) (start len m : ℕ) :
    bit (setRange b start len) m = (bit b m || decide (start ≤ m ∧ m < start + len)) := by
  obtain ⟨hle, hsum, hend, hbits⟩ := setHead_spec b start len
  rw [setRange]
  generalize setHead b start len = head at hle hsum hend hbits ⊢
  obtain ⟨b', start', len'⟩ := head
  dsimp only at hle hsum hend hbits ⊢
  rw [setTail_bit, fill_bit b' hend, hbits, Bool.or_assoc, Bool.or_assoc, ← Bool.decide_or,
    ← Bool.decide_or]
  congr 2
  apply propext
  omega

theorem mmSetupPhys_free (i : Image) (m : ℕ) :
    (mmSetupPhys i).free m = decide (i.endPage ≤ m ∧ m < lowRAMPages) := by
  have hfits := i.fits
  change bit (setRange (fun _ => 0) i.endPage (lowRAMPages - i.endPage)) m = _
  rw [setRange_bit, bit_zero, Bool.false_or, Nat.add_sub_cancel' hfits]

theorem mmSetupPhys_counts (i : Image) :
    (mmSetupPhys i).physNumFree = (lowRAMPages - i.endPage : ℕ) ∧
      (mmSetupPhys i).physFirstFree = i.endPage ∧ (mmSetupPhys i).physLastFree = lowRAMPages := by
  have hfits := i.fits
  have hpages : lowRAMPages = 8192 := rfl
  refine ⟨?_, ?_, ?_⟩
  · change wrap32 (0 + (lowRAMPages - i.endPage : ℕ)) = _
    rw [wrap32_eq (by omega) (by omega)]
    omega
  · change (if (-1 : ℤ) = -1 ∨ toU32 (-1) > i.endPage then wrap32 i.endPage else -1) = _
    rw [if_pos (.inl rfl), wrap32_eq (by omega) (by omega)]
  · change (if toU32 0 < i.endPage + (lowRAMPages - i.endPage) then
      wrap32 (i.endPage + (lowRAMPages - i.endPage) : ℕ) else _) = _
    have hzero : toU32 0 = 0 := rfl
    rw [if_pos (by omega), wrap32_eq (by omega) (by omega)]
    omega

theorem mmSetupPhys_inv (i : Image) : Inv (mmSetupPhys i) := by
  have hpos := i.pos
  have hfits := i.fits
  have hpages : lowRAMPages = 8192 := rfl
  obtain ⟨hnum, hfirst, hlast⟩ := mmSetupPhys_counts i
  have hmax : (mmSetupPhys i).maxPhysPage = lowRAMPages := rfl
  constructor
  case counts =>
    rw [CountsFree, hnum, hfirst, hlast, hmax]
    refine ⟨fun r => ?_, fun m hm hfree => ?_⟩
    · have hfree : freeOf (Finset.Ico 1 lowRAMPages) (fun _ => ()) (mmSetupPhys i).free r =
          Finset.Ico i.endPage lowRAMPages := by
        ext m
        simp only [freeOf, mem_filter, mem_Ico, mmSetupPhys_free, decide_eq_true_eq]
        exact ⟨fun h => h.2.1, fun h => ⟨⟨by omega, h.2⟩, h, trivial⟩⟩
      rw [hfree, card_Ico]
    · rw [mmSetupPhys_free, decide_eq_true_eq] at hfree
      omega
  case above =>
    intro m hm
    rw [mmSetupPhys_free, decide_eq_false (by omega)]
  all_goals omega

/-- On x86_64 and on ARM, calls that meet the condition keep the counts of free frames right. -/
theorem free_frames_counted (rounds : ℕ) (m : PhysMem64Model.Machine)
    (s₀ s : PhysMem64Model.PhysMem) (calls : List PhysMem64Model.Call)
    (i : Image) (s' : PhysMem) (calls' : List Call) :
    (PhysMem64Model.mmInitPhys rounds m = some s₀ →
      Along PhysMem64Model.perform PhysMem64Accounting.Meets s₀ calls →
      run PhysMem64Model.perform s₀ calls = some s → PhysMem64Accounting.CountsFree s) ∧
    (Along perform Meets (mmSetupPhys i) calls' →
      run perform (mmSetupPhys i) calls' = some s' → CountsFree s') := by
  constructor
  · intro hinit hmeets hrun
    have hinv := run_invariant PhysMem64Accounting.perform_counts
      (PhysMem64Accounting.mmInitPhys_counts hinit) hmeets hrun
    exact hinv.counts
  · intro hmeets hrun
    have hinv := run_invariant perform_counts (mmSetupPhys_inv i) hmeets hrun
    exact hinv.counts

def sampleImage : Image := ⟨8188, true, by decide, by decide⟩

def sampleCalls : List Call := [.allocPhysRange 1, .refPhys 0x1FFC000, .derefPhys 0x1FFC000]

theorem sample_frames_counted :
    (∃ s₀ s, PhysMem64Model.mmInitPhys 100 PhysMem64Range.sampleMachine = some s₀ ∧
      run PhysMem64Model.perform s₀ PhysMem64Range.sampleCalls = some s ∧
      PhysMem64Accounting.CountsFree s) ∧
    ∃ s, run perform (mmSetupPhys sampleImage) sampleCalls = some s ∧ CountsFree s := by
  have heval : ((PhysMem64Model.mmInitPhys 100 PhysMem64Range.sampleMachine).map fun s₀ =>
      (decide (Along PhysMem64Model.perform PhysMem64Accounting.Meets s₀
        PhysMem64Range.sampleCalls),
      (run PhysMem64Model.perform s₀ PhysMem64Range.sampleCalls).isSome)) = some (true, true) := by
    decide +kernel
  obtain ⟨s₀, hinit, hs₀⟩ := map_eq_some_iff.mp heval
  obtain ⟨hmeets, hsome⟩ := Prod.mk.inj hs₀
  obtain ⟨s, hrun⟩ := isSome_iff_exists.mp hsome
  have hmeets' : Along perform Meets (mmSetupPhys sampleImage) sampleCalls := by decide +kernel
  have hsome' : (run perform (mmSetupPhys sampleImage) sampleCalls).isSome = true := by
    decide +kernel
  obtain ⟨s', hrun'⟩ := isSome_iff_exists.mp hsome'
  have hcounted := free_frames_counted 100 PhysMem64Range.sampleMachine s₀ s
    PhysMem64Range.sampleCalls sampleImage s' sampleCalls
  constructor
  · exact ⟨s₀, s, hinit, hrun, hcounted.1 hinit (of_decide_eq_true hmeets) hrun⟩
  · exact ⟨s', hrun', hcounted.2 hmeets' hrun'⟩

/-- A free frame is referenced: on both machines the counts are wrong from then on. -/
theorem referenced_frame_uncounted :
    (∃ s₀ s, PhysMem64Model.mmInitPhys 100 PhysMem64Range.sampleMachine = some s₀ ∧
      run PhysMem64Model.perform s₀ [.refPhys 0x7000] = some s ∧
      ¬ PhysMem64Accounting.CountsFree s) ∧
    ∃ s, run perform (mmSetupPhys sampleImage) [.refPhys 0x1FFC000] = some s ∧ ¬ CountsFree s := by
  constructor
  · have heval : ((PhysMem64Model.mmInitPhys 100 PhysMem64Range.sampleMachine).map fun s₀ =>
        (s₀.used 7, s₀.maxPhysPage, s₀.bitmapWords)) = some (false, 16, 512) := by
      decide +kernel
    obtain ⟨s₀, hinit, hs₀⟩ := map_eq_some_iff.mp heval
    obtain ⟨hfree, hrest⟩ := Prod.mk.inj hs₀
    obtain ⟨hmax, hwords⟩ := Prod.mk.inj hrest
    have hcounts := (PhysMem64Accounting.mmInitPhys_counts hinit).counts
    have hstep : PhysMem64Model.perform s₀ (.refPhys 0x7000) = some _ :=
      PhysMem64Accounting.mmRefPhys_free (n := 7) rfl (by omega) (by omega) hfree
    refine ⟨s₀, _, hinit, bind_eq_some_iff.mpr ⟨_, hstep, rfl⟩, ?_⟩
    exact PhysMem64Accounting.refFree_breaks hcounts (by rw [hmax]; decide) hfree
  · have hfree : (mmSetupPhys sampleImage).free 8188 = true := by
      decide
    have hstep : mmRefPhys (mmSetupPhys sampleImage) 0x1FFC000 = some _ :=
      mmRefPhys_free (n := 8188) (by decide) (by decide) hfree
    refine ⟨_, bind_eq_some_iff.mpr ⟨_, hstep, rfl⟩, ?_⟩
    apply refFree_breaks (mmSetupPhys_inv sampleImage).counts _ hfree
    exact mem_Ico.mpr ⟨by decide, by decide⟩

end PhysMemAccounting
