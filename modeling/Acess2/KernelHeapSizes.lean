import Acess2.KernelHeapReallocate
import Acess2.KernelHeapRuns

/-! The room behind a pointer from Heap_Allocate or Heap_AllocateZero. The size of a block is
computed in machine words, so that a request near the top of `size_t` comes out as a small one. -/
namespace KernelHeapSizes

open ByteMemory Function KernelHeapModel KernelHeapBlocks KernelHeapAreas KernelHeapAllocate
open KernelHeapReallocate KernelHeapRuns

def filled (s : Heap) (dst : ℕ) (v : UInt8) (len : ℕ) : Heap :=
  { s with mem := fun x => if dst ≤ x ∧ x < dst + len then v else s.mem x }

def memset (s : Heap) (dst : ℕ) (v : UInt8) (len : ℕ) : Option Heap :=
  if s.Accessible dst len then some (filled s dst v len) else none

def heapAllocateZero (L : Layout) (s : Heap) (c : Caller) (n : ℕ) (ok : ℕ → Bool) :
    Option (Heap × ℕ) := do
  let (s, ret) ← heapAllocate L s c n ok
  if ret = 0 then pure (s, 0)
  else do
    let s ← memset s ret 0 n
    pure (s, ret)

/-- The pointer is to the data of a block, which are `len` bytes up to its foot. -/
def Holds (L : Layout) (s : Heap) (ptr len : ℕ) : Prop :=
  ∃ bs, WellFormed L s bs ∧ (ptr, len) ∈ dataAreas L s.heapStart bs

/-- The states of the heap that its functions lead to while their sizes do not wrap: live blocks are
freed, written to and reallocated where that is safe. -/
inductive Reached (L : Layout) : Heap → Prop
  | install {s s' : Heap} {ok : ℕ → Bool} : heapInstall L s ok = some s' → Reached L s'
  | allocate {s s' : Heap} {c : Caller} {n q : ℕ} {ok : ℕ → Bool} : Reached L s → NoWrap L n →
      ExtendInRange L s.heapEnd (heapIntGetBlockSize L n) →
      heapAllocate L s c n ok = some (s', q) → Reached L s'
  | deallocate {s s' : Heap} {c : Caller} {ptr len : ℕ} : Reached L s → Holds L s ptr len →
      heapDeallocate L s c ptr = some s' → Reached L s'
  | reallocate {s s' : Heap} {c own : Caller} {pre post : List Block} {sz n q : ℕ} {ok : ℕ → Bool} :
      Reached L s → WellFormed L s (pre ++ ⟨sz, true⟩ :: post) → NoWrap L n →
      Safe L pre sz post (heapIntGetBlockSize L n) →
      heapReallocate L s c own (s.heapStart + span pre + L.headBytes) n ok = some (s', q) →
      Reached L s'
  | store {s : Heap} {ptr len addr : ℕ} {v : UInt8} : Reached L s → Holds L s ptr len →
      ptr ≤ addr → addr < ptr + len → Reached L { s with mem := update s.mem addr v }

/-- A request gets NULL, or a block that holds it, and only bytes of that block are set to zero. -/
def Served (L : Layout) (s : Heap) (c : Caller) (n : ℕ) (ok : ℕ → Bool) : Prop :=
  ∃ s₁ ptr, heapAllocate L s c n ok = some (s₁, ptr) ∧
    (ptr = 0 → heapAllocateZero L s c n ok = some (s₁, 0)) ∧
    (ptr ≠ 0 → ∃ len s₂, n ≤ len ∧ Holds L s₁ ptr len ∧
      heapAllocateZero L s c n ok = some (s₂, ptr) ∧
      (∀ x, ptr ≤ x → x < ptr + n → s₂.mem x = 0) ∧
      ∀ x, x < ptr ∨ ptr + len ≤ x → s₂.mem x = s₁.mem x)

variable {L : Layout} {s : Heap} {bs : List Block} {ptr len n : ℕ}

theorem memset_holds (h : Holds L s ptr len) (hn : n ≤ len) :
    memset s ptr 0 n = some (filled s ptr 0 n) := by
  obtain ⟨bs, hw, hmem⟩ := h
  obtain ⟨pre, sz, post, rfl, hptr, hlen⟩ := mem_areas hmem
  obtain ⟨-, hend, -⟩ := hw.block
  simp only at hptr hlen hend
  exact if_pos fun i hi => hw.mapped _ (by omega) (by omega)

theorem Reached.wellFormed (h : Reached L s) : ∃ bs, WellFormed L s bs := by
  induction h with
  | @install s s' ok hinst =>
    obtain ⟨s₀, bs, heq, hsound⟩ := heapInstall_sound L s ok
    cases heq.symm.trans hinst
    exact ⟨bs, hsound.wellFormed⟩
  | @allocate s s' c n q ok _ hn hr halloc ih =>
    obtain ⟨bs, hw⟩ := ih
    obtain ⟨_, _, heq, -, hres⟩ := heapAllocate_spec c ok hw hn hr
    cases heq.symm.trans halloc
    rcases hres with ⟨-, hw', -⟩ | ⟨-, bs', -, -, hw', -⟩
    · exact ⟨bs, hw'⟩
    · exact ⟨bs', hw'⟩
  | @deallocate s s' c ptr len _ hholds hfree =>
    obtain ⟨bs, hw, hmem⟩ := hholds
    obtain ⟨pre, sz, post, rfl, rfl, -⟩ := mem_areas hmem
    obtain ⟨m', pre', k, sz', post', -, -, heq, hw', -⟩ := heapDeallocate_spec c hw
    cases heq.symm.trans hfree
    exact ⟨_, hw'⟩
  | @reallocate s s' c own pre post sz n q ok _ hw hn hsafe hre =>
    obtain ⟨_, _, heq, -, hres⟩ := safe_preserves c own ok hw hn hsafe
    cases heq.symm.trans hre
    rcases hres with ⟨-, hw', -⟩ | ⟨bs, -, hw', -⟩
    · exact ⟨_, hw'⟩
    · exact ⟨bs, hw'⟩
  | @store s ptr len addr v _ hholds hl hu =>
    obtain ⟨bs, hw, hmem⟩ := hholds
    obtain ⟨pre, sz, post, rfl, hptr, hlen⟩ := mem_areas hmem
    simp only at hptr hlen
    have hb := BlockAt_update v hw.block.1 (x := addr) (by omega) (by simp only; omega)
    exact ⟨_, hw.replace [⟨sz, true⟩] hb (by simp)
      (fun x hx => update_of_ne (by simp only at hx; omega) _ _) fun _ => hw.used_room⟩

/-- A request that a block of the heap holds is far from the end of the address space. -/
theorem in_range_of_holds (h : WellFormed L s bs) {s₁ : Heap} (hholds : Holds L s₁ ptr len)
    (hn : n ≤ len) :
    NoWrap L n ∧ ExtendInRange L s.heapEnd (heapIntGetBlockSize L n) := by
  obtain ⟨bs₁, hw, hmem⟩ := hholds
  obtain ⟨pre, sz, post, rfl, -, hlen⟩ := mem_areas hmem
  obtain ⟨hb, hend, -⟩ := hw.block
  have hroom := hw.used_room
  have hmax := hw.end_le
  have hstart := hw.start_eq
  have hle := h.end_le
  have hL := layout_facts L
  have hword := L.word_cases
  simp only at hlen hend
  have hwrap : NoWrap L n := by
    unfold NoWrap
    omega
  obtain ⟨⟨j, hj⟩, -, hblock⟩ := heapIntGetBlockSize_spec hwrap
  obtain ⟨k, hk⟩ : L.minSize ∣ sz := hb.aligned
  -- both are multiples of `MIN_SIZE`
  have hsize : heapIntGetBlockSize L n ≤ sz := by
    rw [hj, hk]
    refine Nat.mul_le_mul_left _
      (Nat.lt_succ_iff.mp (Nat.lt_of_mul_lt_mul_left (a := L.minSize) ?_))
    rw [Nat.mul_succ, ← hj, ← hk]
    omega
  exact ⟨hwrap, .inr (by omega)⟩

theorem served_in_range (c : Caller) (ok : ℕ → Bool) (h : WellFormed L s bs) (hn : NoWrap L n)
    (hr : ExtendInRange L s.heapEnd (heapIntGetBlockSize L n)) : Served L s c n ok := by
  obtain ⟨s₁, ptr, halloc, hstart, hres⟩ := heapAllocate_spec c ok h hn hr
  refine ⟨s₁, ptr, halloc, fun hnull => by simp [heapAllocateZero, halloc, hnull], fun hptr => ?_⟩
  rcases hres with ⟨hnull, -⟩ | ⟨ofs, bs', ha, hofs, hw, -⟩
  · exact absurd hnull hptr
  have hroom := (heapIntGetBlockSize_spec hn).2.1
  have hmem := (allocates_areas (L := L) ha s₁.heapStart).mem_iff.mpr List.mem_cons_self
  rw [hstart, ← hofs, ← hstart] at hmem
  have hheld : n ≤ heapIntGetBlockSize L n - L.headBytes - L.footBytes := by omega
  have hholds : Holds L s₁ ptr _ := ⟨bs', hw, hmem⟩
  refine ⟨_, filled s₁ ptr 0 n, hheld, hholds, ?_, fun x hl hu => if_pos ⟨hl, hu⟩,
    fun x hx => if_neg (by omega)⟩
  simp only [heapAllocateZero, halloc, Option.bind_eq_bind, Option.bind_some, hptr, ↓reduceIte,
    memset_holds hholds hheld, Option.pure_def]

end KernelHeapSizes
