import Acess2.PhysMemAccounting

/-! The address limit of `MM_AllocPhysRange`. On x86_64 `MaxBits` stands for the class its highest
address is in, and the whole class is searched; on ARM it is not looked at. What is returned is the
lowest range there is, so the limit is kept exactly if some range of that size is below it. -/
namespace PhysMemLimit

open FreeCounts GuardedRuns Nat WordBitmaps
open ThreadsModel (wrap32 wrap32_eq)

section X8664

open PhysMem64Model PhysMem64Range

def classBits : ℕ → ℕ
  | 0 => 16
  | 1 => 20
  | 2 => 24
  | 3 => 32
  | _ => 64

def InClass (r n : ℕ) : Prop := n * pageSize < 2 ^ classBits r

theorem inClass_rangeOf {n : ℕ} (hn : n < 2 ^ 52) : InClass (rangeOf n) n := by
  rw [InClass, rangeOf, mmIntGetRangeID, pageSize]
  split_ifs
  all_goals
    simp only [classBits]
    omega

theorem pickRange_le (c : Ranges) (r : ℕ) : pickRange c r ≤ r := by
  induction r with
  | zero => exact le_rfl
  | succ r ih =>
    rw [pickRange]
    split_ifs
    · exact ih.trans (le_succ r)
    · exact le_rfl

theorem classBits_mono {r r' : ℕ} (h : r ≤ r') : classBits r ≤ classBits r' := by
  rcases r with _ | _ | _ | _ | r <;> rcases r' with _ | _ | _ | _ | r' <;>
    first | decide | omega | simp [classBits]

variable {s : PhysMem} {top pages : ℕ} {maxBits : ℤ}

theorem allocPhysRange_below (hs : Inv InClass top s)
    (hret : (mmAllocPhysRange s pages maxBits).1 ≠ 0) :
    (mmAllocPhysRange s pages maxBits).1 + pages * pageSize ≤
      2 ^ classBits (rangeOfBits maxBits) := by
  rcases mmAllocPhysRange_cases s pages maxBits with heq | ⟨n, hfound, heq⟩
  · rw [heq] at hret
    exact absurd rfl hret
  have hbits := classBits_mono (pickRange_le s.ranges (rangeOfBits maxBits))
  have hlast := hs.last (pickRange s.ranges (rangeOfBits maxBits))
  have hle := hfound.le_last
  generalize pickRange s.ranges (rangeOfBits maxBits) = r at hbits hlast hle
  -- the end of the class is the end of a frame
  obtain ⟨k, hk⟩ : pageSize ∣ 2 ^ classBits r :=
    pow_dvd_pow 2 ((by decide : 12 ≤ classBits 0).trans (classBits_mono (zero_le r)))
  have hend : s.ranges.last r < k := by
    rw [InClass, hk, mul_comm] at hlast
    exact Nat.lt_of_mul_lt_mul_left hlast
  calc (mmAllocPhysRange s pages maxBits).1 + pages * pageSize
      ≤ n * pageSize + pages * pageSize := by
        rw [heq]
        exact Nat.add_le_add_right (mod_le _ _) _
    _ = (n + pages) * pageSize := (add_mul ..).symm
    _ ≤ k * pageSize := mul_le_mul_right _ (by omega)
    _ = 2 ^ classBits r := by rw [hk, mul_comm]
    _ ≤ 2 ^ classBits (rangeOfBits maxBits) := Nat.pow_le_pow_right (by decide) hbits

theorem allocPhysRange_limit {limit : ℕ} (hs : Inv (fun _ n => n ≤ top) top s) (htop : top < 2 ^ 52)
    (hret : (mmAllocPhysRange s pages maxBits).1 ≠ 0) :
    (mmAllocPhysRange s pages maxBits).1 + pages * pageSize ≤ limit ↔
      RunBelow (fun n => !s.used n) (s.ranges.first (pickRange s.ranges (rangeOfBits maxBits)))
        (s.ranges.last (pickRange s.ranges (rangeOfBits maxBits))) pages pageSize limit := by
  rcases mmAllocPhysRange_cases s pages maxBits with heq | ⟨n, hfound, heq⟩
  · rw [heq] at hret
    exact absurd rfl hret
  have hend := hfound.le_last
  have hpos := hfound.pages_pos
  have hlast := hs.last (pickRange s.ranges (rangeOfBits maxBits))
  have hsum : (mmAllocPhysRange s pages maxBits).1 + pages * pageSize = (n + pages) * pageSize := by
    rw [heq, add_mul, pageSize]
    omega
  rw [hsum]
  constructor
  · refine fun hle => ⟨n, hfound.first_le, hend, fun m hm hlt => ?_, hle⟩
    simp [hfound.free m hm hlt]
  · rintro ⟨k, hk, -, hrun, hle⟩
    have hfirst := hfound.earliest hs.sound k hk hrun
    exact (Nat.mul_le_mul_right _ (by omega)).trans hle

end X8664

open PhysMemTemplate PhysMemAccounting

section Arm

variable {s t : PhysMem} {pages : ℕ}

structure LastFits (s : PhysMem) : Prop where
  nonneg : 0 ≤ s.physLastFree
  le : s.physLastFree ≤ lowRAMPages
  pages : s.maxPhysPage = lowRAMPages

theorem LastFits.takeFrames (h : LastFits s) (n : ℕ) : LastFits (takeFrames pages s n) := by
  induction pages generalizing s n with
  | zero => exact h
  | succ pages ih =>
    apply ih
    rw [takeFrame, setReference]
    split_ifs <;> exact { h with }

theorem LastFits.alloc (h : LastFits s) (pages : ℕ) : LastFits (mmAllocPhysRange s pages).2 := by
  rw [mmAllocPhysRange]
  split_ifs
  · exact h
  · dsimp only
    split_ifs
    · exact h
    · exact h.takeFrames _

theorem LastFits.allocate (h : LastFits s) {block : ℕ} {ok : Bool}
    (ht : mmAllocate s block = some (ok, t)) : LastFits t := by
  have hpage : LastFits (mmAllocPhys s).2 := h.alloc 1
  rw [mmAllocate] at ht
  dsimp only at ht
  split_ifs at ht
  · cases ht
    exact hpage
  · cases ht
    exact { hpage with }
  · cases ht
    exact { hpage.alloc 1 with }

theorem LastFits.refPhys (h : LastFits s) {pAddr : ℕ} (ht : mmRefPhys s pAddr = some t) :
    LastFits t := by
  rw [mmRefPhys] at ht
  split_ifs at ht
  · cases ht
    exact h
  · cases ht
    rw [setReference]
    split_ifs <;> exact { h with }
  · cases ht
    exact { h with }
  · obtain ⟨⟨ok, u⟩, halloc, heq⟩ := Option.map_eq_some_iff.mp ht
    have hu := h.allocate halloc
    cases ok <;> cases heq
    · exact hu
    · exact { hu with }

theorem LastFits.derefPhys (h : LastFits s) (pAddr : ℕ) : LastFits (mmDerefPhys s pAddr) := by
  have hdrop (n : ℕ) : LastFits (dropReference s n) := by
    rw [dropReference]
    dsimp only
    split_ifs <;> exact { h with }
  rw [mmDerefPhys]
  generalize pAddr / pageSize = n
  dsimp only
  split_ifs with hbeyond
  · exact h
  · obtain ⟨hnonneg, hle, hpages⟩ := hdrop n
    have hn : n ≤ lowRAMPages := h.pages ▸ Nat.not_lt.mp hbeyond
    rw [lowRAMPages] at hle hn
    have hwrap : wrap32 (n : ℤ) = n := wrap32_eq (by omega) (by omega)
    refine ⟨?_, ?_, hpages⟩
    · dsimp only [giveFrame]
      split_ifs <;> omega
    · dsimp only [giveFrame, lowRAMPages]
      split_ifs <;> omega
  · exact hdrop n

theorem LastFits.perform (s : PhysMem) (c : Call) (t : PhysMem) (h : LastFits s)
    (ht : perform s c = some t) : LastFits t := by
  cases c with
  | allocPhysRange pages =>
    cases ht
    exact h.alloc pages
  | refPhys pAddr => exact h.refPhys ht
  | derefPhys pAddr =>
    cases ht
    exact h.derefPhys pAddr

theorem lastFits_setup (i : Image) : LastFits (mmSetupPhys i) := by
  have hend : i.endPage + (lowRAMPages - i.endPage) = lowRAMPages := Nat.add_sub_of_le i.fits
  have hlast : (mmSetupPhys i).physLastFree = lowRAMPages := by
    change (if toU32 0 < i.endPage + (lowRAMPages - i.endPage) then
      wrap32 (i.endPage + (lowRAMPages - i.endPage) : ℕ) else 0) = _
    rw [hend]
    exact (if_pos (by decide)).trans (wrap32_eq (by decide) (by decide))
  exact ⟨by rw [hlast]; decide, hlast.le, rfl⟩

theorem scan_earliest {lo addr nFree : ℕ} (last rounds : ℕ)
    (h : Earliest s.free lo pages addr nFree) (hfew : nFree < pages) :
    Earliest s.free lo pages (scan s pages last rounds addr nFree).1
      (scan s pages last rounds addr nFree).2 := by
  induction rounds generalizing addr nFree with
  | zero => exact h
  | succ rounds ih =>
    rw [scan]
    split_ifs with hle hword hfree hpages
    · refine ih (h.skip hfew (by omega) fun m hm hlt => ?_) (by omega)
      rw [PhysMem.free, WordBitmaps.bit, show m / 32 = addr / 32 by omega, hword]
      exact BitVec.getLsbD_zero
    · exact h.next
    · exact ih h.next (by omega)
    · refine ih (h.skip hfew (by omega) fun m hm hlt => ?_) (by omega)
      obtain rfl : m = addr := by omega
      exact Bool.eq_false_of_not_eq_true hfree
    · exact h

theorem arm_limit {limit : ℕ} (hs : LastFits s) (hret : (mmAllocPhysRange s pages).1 ≠ 0) :
    (mmAllocPhysRange s pages).1 + pages * pageSize ≤ limit ↔
      RunBelow s.free (toU32 s.physFirstFree) (toU32 s.physLastFree) pages pageSize limit := by
  have hlast : toU32 s.physLastFree ≤ lowRAMPages := by
    have := hs.le
    rw [toU32_eq hs.nonneg (by rw [lowRAMPages] at this; omega)]
    omega
  revert hret
  rw [mmAllocPhysRange]
  split_ifs
  · exact fun h => absurd rfl h
  obtain ⟨hrun, hend⟩ := scan_spec s pages (toU32 s.physLastFree)
    (toU32 s.physLastFree + 1 - toU32 s.physFirstFree)
    (freeRun_start _ (toU32 s.physFirstFree)) (.inl rfl)
  have hscan := scan_earliest (s := s) (toU32 s.physLastFree)
    (toU32 s.physLastFree + 1 - toU32 s.physFirstFree)
    (earliest_start _ (toU32 s.physFirstFree) pages)
  dsimp only
  generalize scan s pages _ _ _ 0 = found at hrun hend hscan ⊢
  obtain ⟨addr, nFree⟩ := found
  split_ifs with hfail
  · exact fun h => absurd rfl h
  intro _
  obtain ⟨rfl, hpos⟩ : nFree = pages ∧ nFree ≠ 0 := by tauto
  obtain ⟨hlo, hfree⟩ := hrun
  have hsum : (addr - nFree) * pageSize % 2 ^ 32 + nFree * pageSize = addr * pageSize := by
    rw [pageSize]
    rw [lowRAMPages] at hlast
    dsimp only at hend hlo
    omega
  rw [hsum]
  constructor
  · intro hle
    refine ⟨addr - nFree, by omega, by omega, fun m hm hlt => hfree m (by omega) (by omega), ?_⟩
    rwa [Nat.sub_add_cancel (by omega)]
  · rintro ⟨k, hk, -, hrun, hle⟩
    have hfirst : addr ≤ k + nFree := hscan (Nat.pos_of_ne_zero hpos) k hk hrun
    exact (Nat.mul_le_mul_right _ hfirst).trans hle

end Arm

/-- The limit is kept exactly if, between the first and the last frame that may be free, of the
class picked on x86_64 and of all on ARM, some range of that size is below it. If the limit is the
end of a class of addresses, it is always kept on x86_64. -/
theorem limit_kept (maxBits : ℕ) :
    (∀ (rounds : ℕ) (m : PhysMem64Model.Machine) (s₀ s : PhysMem64Model.PhysMem)
      (calls : List PhysMem64Model.Call) (pages : ℕ),
      PhysMem64Model.mmInitPhys rounds m = some s₀ →
      run PhysMem64Model.perform s₀ calls = some s →
      (PhysMem64Model.mmAllocPhysRange s pages maxBits).1 ≠ 0 →
      ((PhysMem64Model.mmAllocPhysRange s pages maxBits).1 + pages * 4096 ≤ 2 ^ maxBits ↔
        RunBelow (fun n => !s.used n)
          (s.ranges.first (PhysMem64Model.pickRange s.ranges (PhysMem64Model.rangeOfBits maxBits)))
          (s.ranges.last (PhysMem64Model.pickRange s.ranges (PhysMem64Model.rangeOfBits maxBits)))
          pages 4096 (2 ^ maxBits)) ∧
      (maxBits = 16 ∨ maxBits = 20 ∨ maxBits = 24 ∨ maxBits = 32 →
        (PhysMem64Model.mmAllocPhysRange s pages maxBits).1 + pages * 4096 ≤ 2 ^ maxBits)) ∧
    ∀ (i : PhysMemTemplate.Image) (s : PhysMemTemplate.PhysMem)
      (calls : List PhysMemTemplate.Call) (pages : ℕ),
      run PhysMemTemplate.perform (PhysMemTemplate.mmSetupPhys i) calls = some s →
      (PhysMemTemplate.mmAllocPhysRange s pages).1 ≠ 0 →
      ((PhysMemTemplate.mmAllocPhysRange s pages).1 + pages * 4096 ≤ 2 ^ maxBits ↔
        RunBelow s.free (PhysMemTemplate.toU32 s.physFirstFree)
          (PhysMemTemplate.toU32 s.physLastFree) pages 4096 (2 ^ maxBits)) := by
  constructor
  · intro rounds m s₀ s calls pages hinit hrun hret
    have hsmall := PhysMem64Range.mmInitPhys_small hinit
    have hs : PhysMem64Range.Inv (fun _ n => n ≤ s₀.maxPhysPage) s₀.maxPhysPage s :=
      run_preserves (PhysMem64Range.perform_inv fun _ hn => hn)
        (PhysMem64Range.mmInitPhys_inv hinit (fun _ hn => hn) fun _ => Nat.zero_le _) hrun
    refine ⟨allocPhysRange_limit hs hsmall hret, fun hclass => ?_⟩
    have hclasses : ∀ n, n ≤ s₀.maxPhysPage → InClass (PhysMem64Model.rangeOf n) n :=
      fun n hn => inClass_rangeOf (by omega)
    have hs := run_preserves (PhysMem64Range.perform_inv hclasses)
      (PhysMem64Range.mmInitPhys_inv hinit hclasses fun r => by
        rw [InClass, zero_mul]
        exact Nat.two_pow_pos _) hrun
    refine (allocPhysRange_below hs hret).trans (le_of_eq ?_)
    rcases hclass with rfl | rfl | rfl | rfl <;> rfl
  · intro i s calls pages hrun hret
    exact arm_limit (run_preserves LastFits.perform (lastFits_setup i) hrun) hret

/-- One page is below a limit of 15 bits on x86_64, and of 25 bits on ARM. -/
theorem sample_limits_kept :
    (∃ s, PhysMem64Model.mmInitPhys 100 PhysMem64Range.sampleMachine = some s ∧
      RunBelow (fun n => !s.used n) (s.ranges.first 0) (s.ranges.last 0) 1 4096 (2 ^ 15)) ∧
    (PhysMemTemplate.mmAllocPhysRange
      (PhysMemTemplate.mmSetupPhys PhysMemAccounting.sampleImage) 1).1 + 1 * 4096 ≤ 2 ^ 25 := by
  have heval : (PhysMem64Model.mmInitPhys 100 PhysMem64Range.sampleMachine).map (fun s =>
      (PhysMem64Model.pickRange s.ranges (PhysMem64Model.rangeOfBits (15 : ℕ)),
        (PhysMem64Model.mmAllocPhysRange s 1 (15 : ℕ)).1)) = some (0, 0x7000) := by
    decide +kernel
  obtain ⟨s, hinit, hs⟩ := Option.map_eq_some_iff.mp heval
  obtain ⟨hclass, hret⟩ := Prod.mk.inj hs
  have hkept := ((limit_kept 15).1 100 _ s s [] 1 hinit rfl (by rw [hret]; decide)).1.mp
    (by rw [hret]; decide)
  rw [hclass] at hkept
  refine ⟨⟨s, hinit, hkept⟩, ?_⟩
  refine ((limit_kept 25).2 PhysMemAccounting.sampleImage _ [] 1 rfl (by decide +kernel)).mpr ?_
  refine ⟨8188, by decide +kernel, by decide +kernel, fun m hm hlt => ?_, by decide⟩
  obtain rfl : m = 8188 := by omega
  decide +kernel

/-- With a limit of 12 bits one page at `0x7000` is given out on x86_64, and on ARM the first page
behind the kernel. -/
theorem limit_exceeded : (PhysMem64Model.mmInitPhys 100 PhysMem64Range.sampleMachine).map
        (fun s => (PhysMem64Model.mmAllocPhysRange s 1 12).1) = some 0x7000 ∧
      (PhysMemTemplate.mmAllocPhysRange
        (PhysMemTemplate.mmSetupPhys PhysMemAccounting.sampleImage) 1).1 = 8188 * 4096 := by
  decide +kernel

end PhysMemLimit
