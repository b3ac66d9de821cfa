import Acess2.PhysMemAccounting

/-! The reference counts of the ARM ports. Where the page of a frame's count is mapped
`MM_GetRefCount` returns the count; elsewhere it takes the bit of a free frame for a reference. -/
namespace PhysMemReferences

open FreeCounts Function GuardedRuns Option PhysMemTemplate WordBitmaps
open PhysMemAccounting (free_setUsed free_takeFrame sampleImage scan_spec)

/-- `MM_GetRefCount`; the bitmap is always mapped. -/
def mmGetRefCount (s : PhysMem) (pAddr : ℕ) : ℤ :=
  let n := pAddr / pageSize
  if s.counted n then (s.pageReferences n).toInt else if s.free n then 1 else 0

/-- The allocator, and the references to the frames whose counts have a page -/
structure System where
  mem : PhysMem
  noted : ℕ → ℕ

/-- The outstanding references to a frame, taken as one while there is no page for its count -/
def System.held (s : System) (n : ℕ) : ℕ :=
  if s.mem.counted n then s.noted n else if s.mem.free n then 0 else 1

def System.heldAfter (s : System) (t : PhysMem) (c : Call) (n : ℕ) : ℕ :=
  let taken := if s.mem.free n = true ∧ t.free n = false then 1 else s.held n
  match c with
  | .allocPhysRange _ => taken
  | .refPhys pAddr =>
    if n = pAddr / pageSize ∧ n < s.mem.maxPhysPage then s.held n + 1 else taken
  | .derefPhys pAddr =>
    if n = pAddr / pageSize ∧ n ≤ s.mem.maxPhysPage then s.held n - 1 else s.held n

def step (s : System) (c : Call) : Option System :=
  (perform s.mem c).map fun t => ⟨t, s.heldAfter t c⟩

def start (i : Image) : System := ⟨mmSetupPhys i, fun _ => 0⟩

def Fewer (s : System) : Call → Prop
  | .refPhys pAddr => s.held (pAddr / pageSize) + 1 < 2 ^ 31
  | _ => True

instance (s : System) : DecidablePred (Fewer s) := fun c => by
  refine c.casesOn ?_ ?_ ?_ <;> intros <;> dsimp only [Fewer] <;> infer_instance

variable {s t u : PhysMem} {m n k : ℕ}

structure Taken (s t : PhysMem) (n : ℕ) : Prop where
  mapped : t.refMapped = s.refMapped
  frame : t.free n = s.free n ∧ t.pageReferences n = s.pageReferences n ∨
    s.free n = true ∧ t.free n = false ∧ (s.counted n = true → t.pageReferences n = 1)

theorem Taken.refl : Taken s s n := ⟨rfl, .inl ⟨rfl, rfl⟩⟩

theorem Taken.trans (h : Taken s t n) (h' : Taken t u n) : Taken s u n := by
  refine ⟨h'.mapped.trans h.mapped, ?_⟩
  have hcounted : t.counted n = s.counted n := congrFun h.mapped _
  rcases h'.frame with ⟨hfree, hrefs⟩ | ⟨hbefore, hafter, hrefs⟩
  · rw [hfree, hrefs]
    exact h.frame
  · rcases h.frame with ⟨hfree, -⟩ | ⟨-, hused, -⟩
    · exact .inr ⟨hfree ▸ hbefore, hafter, hcounted ▸ hrefs⟩
    · cases hused.symm.trans hbefore

theorem setReference_taken (hfree : s.free m = true) (hbits : t.free n = (setUsed s m).free n)
    (hrefs : t.pageReferences = s.pageReferences) (hmapped : t.refMapped = s.refMapped) :
    Taken s (setReference t m) n := by
  rw [free_setUsed] at hbits
  rw [setReference]
  by_cases hn : n = m
  · subst hn
    have hused : t.free n = false := hbits.trans (by simp)
    split_ifs with hcounted
    · exact ⟨hmapped, .inr ⟨hfree, hused, fun _ => update_self ..⟩⟩
    · refine ⟨hmapped, .inr ⟨hfree, hused, fun hc => absurd ?_ hcounted⟩⟩
      exact (congrFun hmapped _).trans hc
  · have hkept : t.free n = s.free n := hbits.trans (by simp [hn])
    split_ifs
    · exact ⟨hmapped, .inl ⟨hkept, (update_of_ne hn ..).trans (congrFun hrefs n)⟩⟩
    · exact ⟨hmapped, .inl ⟨hkept, congrFun hrefs n⟩⟩

theorem takeFrames_taken {pages a : ℕ} (hfree : ∀ m, a ≤ m → m < a + pages → s.free m = true) :
    Taken s (takeFrames pages s a) n := by
  induction pages generalizing s a with
  | zero => exact .refl
  | succ pages ih =>
    have htake : Taken s (takeFrame s a) n :=
      setReference_taken (hfree a le_rfl (by omega)) rfl rfl rfl
    refine htake.trans (ih fun m hle hlt => ?_)
    rw [free_takeFrame, hfree m (by omega) (by omega), decide_eq_false (by omega)]
    rfl

theorem allocPhysRange_taken (s : PhysMem) (pages n : ℕ) :
    Taken s (mmAllocPhysRange s pages).2 n := by
  rw [mmAllocPhysRange]
  split_ifs
  · exact .refl
  obtain ⟨⟨hlen, hfree⟩, -⟩ := scan_spec s pages (toU32 s.physLastFree)
    (toU32 s.physLastFree + 1 - toU32 s.physFirstFree)
    (freeRun_start _ (toU32 s.physFirstFree)) (.inl rfl)
  dsimp only
  split_ifs
  · exact .refl
  · exact takeFrames_taken fun m hle hlt => hfree m (by omega) (by omega)

theorem mmAllocate_taken {block : ℕ} {ok : Bool} (heq : mmAllocate s block = some (ok, t)) (n : ℕ) :
    ∃ u table, Taken s u n ∧ t = { u with
      refTable := table
      refMapped := if ok then update s.refMapped block true else s.refMapped } := by
  have h₁ := allocPhysRange_taken s 1 n
  have h₂ := h₁.trans (allocPhysRange_taken (mmAllocPhysRange s 1).2 1 n)
  rw [mmAllocate, mmAllocPhys] at heq
  dsimp only at heq
  split_ifs at heq <;> cases heq
  · exact ⟨_, _, h₁, by rw [← h₁.mapped]; rfl⟩
  · exact ⟨_, _, h₁, by rw [← h₁.mapped]; rfl⟩
  · exact ⟨_, _, h₂, by rw [← h₂.mapped]; rfl⟩

structure Exact (s : PhysMem) (n k : ℕ) : Prop where
  free_iff : s.free n = true ↔ k = 0
  count : s.counted n = true → (s.pageReferences n).toInt = k

theorem Exact.congr (h : Exact s n k) (hfree : t.free n = s.free n)
    (hrefs : t.pageReferences n = s.pageReferences n) (hmapped : t.refMapped = s.refMapped) :
    Exact t n k :=
  ⟨hfree ▸ h.free_iff, fun hc => hrefs ▸ h.count ((congrFun hmapped _).symm.trans hc)⟩

theorem Exact.taken (h : Exact s n k) (ht : Taken s t n) :
    Exact t n (if s.free n = true ∧ t.free n = false then 1 else k) := by
  have hcounted : t.counted n = s.counted n := congrFun ht.mapped _
  rcases ht.frame with ⟨hfree, hrefs⟩ | ⟨hbefore, hafter, hrefs⟩
  · rw [if_neg fun hn => by simp [hfree, hn.1] at hn]
    exact h.congr hfree hrefs ht.mapped
  · rw [if_pos ⟨hbefore, hafter⟩]
    refine ⟨by simp [hafter], fun hc => ?_⟩
    rw [hrefs (hcounted ▸ hc)]
    rfl

theorem more_toInt {refs : BitVec 32} (h : refs.toInt = k) (hk : k + 1 < 2 ^ 31) :
    (refs + 1).toInt = (k + 1 : ℕ) := by
  rw [BitVec.toInt_eq_toNat_cond] at h ⊢
  split_ifs at h ⊢ <;> bv_omega

theorem lessOne_toInt {refs : BitVec 32} (h : refs.toInt = k) :
    (lessOne refs).toInt = (k - 1 : ℕ) := by
  rw [lessOne]
  rw [BitVec.toInt_eq_toNat_cond] at h ⊢
  split_ifs at h ⊢ <;> bv_omega

theorem Exact.filled (h : Exact s n k) (hk : k ≤ 1) :
    (if s.free n then 0 else 1 : BitVec 32).toInt = k := by
  split_ifs with hfree
  · rw [h.free_iff.mp hfree]
    rfl
  · have hpos := Nat.pos_of_ne_zero (mt h.free_iff.mpr hfree)
    rw [le_antisymm hk hpos]
    rfl

variable {pAddr : ℕ}

section

variable (h : Exact s n k) (hk : s.counted n = false → k ≤ 1)
include h hk

theorem refPhys_exact
    (hfew : n = pAddr / pageSize → k + 1 < 2 ^ 31) (heq : mmRefPhys s pAddr = some t)
    (ht : t.counted n = true) : Exact t n (if n = pAddr / pageSize ∧ n < s.maxPhysPage then k + 1
      else if s.free n = true ∧ t.free n = false then 1 else k) := by
  rw [mmRefPhys] at heq
  generalize pAddr / pageSize = m at hfew heq
  by_cases hbound : m ≥ s.maxPhysPage
  · cases (if_pos hbound).symm.trans heq
    rw [if_neg (by omega)]
    exact h.taken .refl
  have hiff : n = m ∧ n < s.maxPhysPage ↔ n = m := by omega
  rw [if_neg hbound] at heq
  rw [if_congr hiff rfl rfl]
  split_ifs at heq with hfree hcounted
  · cases heq
    have htaken := h.taken (setReference_taken (n := n) hfree rfl rfl rfl)
    by_cases hn : n = m
    · subst hn
      obtain ⟨refs, heq⟩ := PhysMemAccounting.setReference_eq (setUsed s n) n
      have hused : (setUsed s n).free n = false := by simp [free_setUsed]
      rw [heq, if_pos ⟨hfree, hused⟩] at htaken
      rwa [heq, if_pos rfl, h.free_iff.mp hfree]
    · rwa [if_neg hn]
  · cases heq
    by_cases hn : n = m
    · subst hn
      have hfew := hfew rfl
      rw [if_pos rfl]
      refine ⟨iff_of_false hfree (by omega), fun _ => ?_⟩
      simp only [update_self]
      exact more_toInt (h.count hcounted) hfew
    · rw [if_neg hn]
      exact h.taken ⟨rfl, .inl ⟨rfl, update_of_ne hn ..⟩⟩
  obtain ⟨⟨ok, w⟩, halloc, rfl⟩ := map_eq_some_iff.mp heq
  obtain ⟨u, table, hu, rfl⟩ := mmAllocate_taken halloc n
  have htaken := h.taken (t := { u with refMapped := s.refMapped }) ⟨rfl, hu.frame⟩
  cases ok with
  | false =>
    rw [if_neg fun hn : n = m => hcounted (hn ▸ ht)]
    exact ⟨htaken.free_iff, htaken.count⟩
  | true =>
    by_cases hn : n = m
    · subst hn
      have hfree' : u.free n = s.free n := hu.frame.elim And.left fun h => absurd h.1 hfree
      have hk := hk (Bool.eq_false_iff.mpr hcounted)
      have hk := mt h.free_iff.mpr hfree
      obtain rfl : k = 1 := by omega
      rw [if_pos (rfl : n = n)]
      refine ⟨iff_of_false (hfree' ▸ hfree) (by decide), fun _ => ?_⟩
      simp [fillBlock]
    rw [if_neg hn]
    refine ⟨htaken.free_iff, fun _ => ?_⟩
    by_cases hblock : n / 1024 = m / 1024
    · have hnone : s.counted n = s.counted m := congrArg s.refMapped hblock
      have hk := hk (hnone.trans (Bool.eq_false_iff.mpr hcounted))
      simp only [fillBlock, ↓reduceIte, update_of_ne hn, hblock]
      exact htaken.filled (by split_ifs <;> omega)
    · simp only [PhysMem.counted, fillBlock, ↓reduceIte, update_of_ne hn, update_of_ne hblock,
        hblock] at ht ⊢
      exact htaken.count ht

theorem dropReference_exact (m : ℕ) : Exact (dropReference s m) n (if n = m then k - 1 else k) := by
  have hbit : bit (setBit s.pageBitmaps m) n = (s.free n || decide (n = m)) :=
    bit_setBit (by decide) n m
  rw [dropReference]
  by_cases hn : n = m
  · subst hn
    have hset : bit (setBit s.pageBitmaps n) n = true := hbit.trans (by simp)
    rw [if_pos rfl]
    dsimp only
    by_cases hc : s.counted n = true
    · have hless := lessOne_toInt (h.count hc)
      have hiff : lessOne (s.pageReferences n) = 0 ↔ k - 1 = 0 := by
        rw [← BitVec.toInt_inj, hless]
        exact Int.natCast_eq_zero
      rw [if_pos hc]
      split_ifs with hzero
      · exact ⟨iff_of_true hset (hiff.mp hzero), fun _ => by simpa only [update_self]⟩
      · have := mt hiff.mpr hzero
        exact ⟨h.free_iff.trans (by omega), fun _ => by simpa only [update_self]⟩
    · have := hk (Bool.eq_false_iff.mpr hc)
      rw [if_neg hc]
      exact ⟨iff_of_true hset (by omega), (absurd · hc)⟩
  · have hkeep : bit (setBit s.pageBitmaps m) n = s.free n := hbit.trans (by simp [hn])
    rw [if_neg hn]
    dsimp only
    split_ifs
    · exact h.congr hkeep (update_of_ne hn ..) rfl
    · exact h.congr rfl (update_of_ne hn ..) rfl
    · exact h.congr hkeep rfl rfl

theorem derefPhys_exact : Exact (mmDerefPhys s pAddr) n
      (if n = pAddr / pageSize ∧ n ≤ s.maxPhysPage then k - 1 else k) := by
  rw [mmDerefPhys]
  generalize pAddr / pageSize = m
  by_cases hbound : m > s.maxPhysPage
  · rw [if_pos hbound, if_neg (by omega)]
    exact h
  · have hiff : n = m ∧ n ≤ s.maxPhysPage ↔ n = m := by omega
    have hdrop := dropReference_exact h hk m
    rw [if_neg hbound, if_congr hiff rfl rfl]
    dsimp only
    cases (dropReference s m).free m <;> exact hdrop.congr rfl rfl rfl

end

variable {s s' : System} {c : Call}

theorem System.uncounted (s : System) (hc : s.mem.counted n = false) :
    Exact s.mem n (s.held n) ∧ s.held n ≤ 1 := by
  have hc := Bool.eq_false_iff.mp hc
  rw [System.held, if_neg hc]
  split_ifs with hfree
  · exact ⟨⟨iff_of_true hfree rfl, (absurd · hc)⟩, zero_le_one⟩
  · exact ⟨⟨iff_of_false hfree one_ne_zero, (absurd · hc)⟩, le_rfl⟩

def Inv (s : System) : Prop := ∀ n, Exact s.mem n (s.held n)

theorem step_inv (h : Inv s) (hfew : Fewer s c) (hstep : step s c = some s') : Inv s' := by
  obtain ⟨t, ht, rfl⟩ := map_eq_some_iff.mp hstep
  intro n
  cases hc : t.counted n with
  | false => exact (System.uncounted _ hc).1
  | true =>
    have hle hc := (s.uncounted (n := n) hc).2
    have hheld : (System.mk t (s.heldAfter t c)).held n = s.heldAfter t c n := if_pos hc
    rw [hheld]
    cases c with
    | allocPhysRange pages =>
      cases ht
      exact (h n).taken (allocPhysRange_taken ..)
    | refPhys pAddr => exact refPhys_exact (h n) hle (fun heq => heq ▸ hfew) ht hc
    | derefPhys pAddr =>
      cases ht
      exact derefPhys_exact (h n) hle

/-- `MM_GetRefCount` is right about a frame if and only if the page of its count is mapped. -/
theorem referenceCount_right_iff (i : Image) (cs : List Call) (s : System)
    (hfew : Along step Fewer (start i) cs) (hrun : run step (start i) cs = some s) (pAddr : ℕ) :
    let n := pAddr / pageSize
    ((mmGetRefCount s.mem pAddr = 0 ↔ s.mem.free n = true) ∧
      (s.mem.free n = false → mmGetRefCount s.mem pAddr = s.held n)) ↔ s.mem.counted n = true := by
  have hstart : Inv (start i) := fun _ => (System.uncounted _ rfl).1
  have h := run_invariant (fun _ _ _ => step_inv) hstart hfew hrun (pAddr / pageSize)
  dsimp only [mmGetRefCount]
  split_ifs with hc hfree
  · rw [h.count hc]
    exact iff_of_true ⟨Int.natCast_eq_zero.trans h.free_iff.symm, fun _ => rfl⟩ hc
  · exact iff_of_false (fun h => one_ne_zero (h.1.mpr hfree)) hc
  · exact iff_of_false (fun h => hfree (h.1.mp rfl)) hc

/-- A page in use is referenced: it then has two references, which are counted. -/
theorem shared_frame_counted :
    ∃ s, run step (start sampleImage) [.allocPhysRange 1, .refPhys 0x1FFC000] = some s ∧
      (s.mem.free 0x1FFC = false → mmGetRefCount s.mem 0x1FFC000 = s.held 0x1FFC) := by
  have heval : ((run step (start sampleImage) [.allocPhysRange 1, .refPhys 0x1FFC000]).map
      fun s => s.mem.counted 0x1FFC) = some true := by
    decide +kernel
  obtain ⟨s, hrun, hc⟩ := map_eq_some_iff.mp heval
  exact ⟨s, hrun, ((referenceCount_right_iff _ _ s (by decide +kernel) hrun 0x1FFC000).mpr hc).2⟩

/-- A frame that is free after the start is reported with a reference. -/
theorem free_frame_referenced : (mmSetupPhys sampleImage).free (0x1FFC000 / pageSize) = true ∧
      mmGetRefCount (mmSetupPhys sampleImage) 0x1FFC000 = 1 := by
  decide +kernel

end PhysMemReferences
