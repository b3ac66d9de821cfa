import Acess2.GuardedRuns
import Acess2.KernelHeapAllocate
import Mathlib.Data.List.Nodup

/-! # Runs of the kernel heap

A run is Heap_Install followed by any calls of Heap_Allocate and Heap_Deallocate, with the
owners of live allocations writing to their data in between. The invariant says that the
block list spelt by the memory is coalesced and that its used blocks are the live
allocations. -/
namespace KernelHeapRuns

open ByteMemory Function List Option KernelHeapModel KernelHeapBlocks KernelHeapAreas
open GuardedRuns KernelHeapMerge KernelHeapAllocate

variable {L : Layout} {bs bs' pre post : List Block} {sz k ofs : ℕ}

theorem coalesced_used {b : Block} (hb : b.used = true) :
    Coalesced (pre ++ b :: post) ↔ Coalesced pre ∧ Coalesced post := by
  unfold Coalesced
  rw [isChain_append, isChain_cons]
  constructor
  · exact fun h => ⟨h.1, h.2.1.2⟩
  · intro h
    refine ⟨h.1, ⟨fun _ _ => .inl hb, h.2⟩, fun x _ y hy => .inr ?_⟩
    rw [← mem_some_iff.mp hy]
    exact hb

theorem coalesced_free (h : Coalesced (pre ++ ⟨k, false⟩ :: post)) :
    Coalesced pre ∧ Coalesced post ∧ ∀ b ∈ post.head?, b.used = true := by
  obtain ⟨hpre, hrest, -⟩ := isChain_append.mp h
  obtain ⟨hhead, hpost⟩ := isChain_cons.mp hrest
  exact ⟨hpre, hpost, fun b hb => (hhead b hb).resolve_left (by simp)⟩

theorem takes_coalesced (ht : Takes sz bs ofs bs') (h : Coalesced bs) : Coalesced bs' := by
  cases ht with
  | perfect pre post =>
    obtain ⟨hpre, hpost, -⟩ := coalesced_free h
    exact (coalesced_used rfl).mpr ⟨hpre, hpost⟩
  | split pre k post hlt =>
    obtain ⟨hpre, hpost, hhead⟩ := coalesced_free h
    refine (coalesced_used rfl).mpr ⟨hpre, ?_⟩
    exact isChain_cons.mpr ⟨fun b hb => .inr (hhead b hb), hpost⟩

theorem allocates_coalesced (ha : Allocates sz bs ofs bs') (h : Coalesced bs) : Coalesced bs' := by
  cases ha with
  | found ht => exact takes_coalesced ht h
  | grown k k' pre hj ht =>
    have hnew := joins_coalesced hj (.used k' [] (by simp)) h isChain_nil
    exact takes_coalesced ht hnew

/-- A call into the heap, or a byte written by the owner of a live allocation. -/
inductive Call where
  | allocate (c : Caller) (n : ℕ) (ok : ℕ → Bool)
  | deallocate (c : Caller) (ptr : ℕ)
  | store (addr : ℕ) (v : UInt8)

structure State where
  heap : Heap
  live : List (ℕ × ℕ)

section

variable (L)

def step (σ : State) : Call → Option (State × ℕ)
  | .allocate c n ok => do
    let (s, q) ← heapAllocate L σ.heap c n ok
    pure (⟨s, if q = 0 then σ.live else (q, n) :: σ.live⟩, q)
  | .deallocate c ptr => do
    let s ← heapDeallocate L σ.heap c ptr
    pure (⟨s, σ.live.filter fun r => r.1 != ptr⟩, 0)
  | .store addr v =>
    some (⟨{ σ.heap with mem := update σ.heap.mem addr v }, σ.live⟩, 0)

/-- Requests do not wrap, only live pointers are freed, owners stay inside what they
asked for. -/
def Legal (σ : State) : Call → Prop
  | .allocate _ n _ => NoWrap L n
  | .deallocate _ ptr => ptr ∈ σ.live.map Prod.fst
  | .store addr _ => ∃ r ∈ σ.live, r.1 ≤ addr ∧ addr < r.1 + r.2

/-- The size an allocation asks of Heap_Extend does not wrap there. -/
def InRange (σ : State) : Call → Prop
  | .allocate _ n _ => ExtendInRange L σ.heap.heapEnd (heapIntGetBlockSize L n)
  | _ => True

def next (σ : State) (c : Call) : Option State := (step L σ c).map Prod.fst

instance (σ : State) : DecidablePred (Legal L σ) := fun c => by
  cases c <;> dsimp only [Legal] <;> infer_instance

instance (σ : State) : DecidablePred (InRange L σ) := fun c => by
  cases c <;> dsimp only [InRange] <;> infer_instance

end

/-- The blocks tile the heap, coalesced, and the used ones are the live allocations. -/
structure Sound (L : Layout) (σ : State) (bs : List Block) : Prop where
  wellFormed : WellFormed L σ.heap bs
  coalesced : Coalesced bs
  live : (σ.live.map Prod.fst).Perm ((dataAreas L σ.heap.heapStart bs).map Prod.fst)
  disjoint : Apart (dataAreas L σ.heap.heapStart bs)
  fits : ∀ r ∈ σ.live, ∃ len, r.2 ≤ len ∧ (r.1, len) ∈ dataAreas L σ.heap.heapStart bs

variable {σ : State}

theorem allocate_sound (c : Caller) (n : ℕ) (ok : ℕ → Bool) (h : Sound L σ bs)
    (hn : NoWrap L n) (hr : ExtendInRange L σ.heap.heapEnd (heapIntGetBlockSize L n)) :
    ∃ σ' q bs', step L σ (.allocate c n ok) = some (σ', q) ∧ Sound L σ' bs' ∧
      (q = 0 → bs' = bs ∧ σ'.live = σ.live) := by
  obtain ⟨s', q, heq, hstart, hres⟩ := heapAllocate_spec c ok h.wellFormed hn hr
  have hstep : step L σ (.allocate c n ok) =
      some (⟨s', if q = 0 then σ.live else (q, n) :: σ.live⟩, q) := by
    simp only [step, heq, bind_eq_bind, bind_some, Option.pure_def]
  rcases hres with ⟨rfl, hw, -, -⟩ | ⟨ofs, bs', ha, rfl, hw, -⟩
  · refine ⟨_, 0, bs, hstep, ⟨hw, h.coalesced, ?_, ?_, ?_⟩, fun _ => ⟨rfl, by simp⟩⟩
    · simpa [hstart] using h.live
    · simpa [hstart] using h.disjoint
    · simpa [hstart] using h.fits
  have hne : σ.heap.heapStart + ofs + L.headBytes ≠ 0 := by
    have hL := layout_facts L
    omega
  have hareas := allocates_areas (L := L) ha s'.heapStart
  rw [hstart] at hareas
  rw [if_neg hne] at hstep
  refine ⟨_, _, bs', hstep, ⟨hw, allocates_coalesced ha h.coalesced, ?_, areas_apart hw, ?_⟩,
    fun hq => absurd hq hne⟩
  · simp only [hstart, map_cons]
    exact ((h.live.cons _).trans (hareas.map Prod.fst).symm)
  · intro r hr
    simp only [hstart]
    rcases mem_cons.mp hr with rfl | hr
    · have hroom := (heapIntGetBlockSize_spec hn).2.1
      exact ⟨_, by omega, hareas.mem_iff.mpr mem_cons_self⟩
    · obtain ⟨len, hlen, hmem⟩ := h.fits r hr
      exact ⟨len, hlen, hareas.mem_iff.mpr (mem_cons_of_mem _ hmem)⟩

theorem deallocate_sound (c : Caller) {ptr : ℕ} (h : Sound L σ bs)
    (hp : ptr ∈ σ.live.map Prod.fst) :
    ∃ σ' q bs', step L σ (.deallocate c ptr) = some (σ', q) ∧ Sound L σ' bs' := by
  obtain ⟨r, hr, rfl⟩ := mem_map.mp (h.live.mem_iff.mp hp)
  obtain ⟨pre, sz, post, rfl, hptr, -⟩ := mem_areas hr
  rw [hptr]
  obtain ⟨hpre, hpost⟩ := (coalesced_used rfl).mp h.coalesced
  obtain ⟨m', pre', k, sz', post', hj, hj', heq, hw, -⟩ := heapDeallocate_spec c h.wellFormed
  have hareas : (dataAreas L σ.heap.heapStart (pre ++ ⟨sz, true⟩ :: post)).Perm
      ((σ.heap.heapStart + span pre + L.headBytes, sz - L.headBytes - L.footBytes) ::
        dataAreas L σ.heap.heapStart (pre' ++ ⟨sz', false⟩ :: post')) := by
    rw [joins_areas hj hj']
    exact areas_used _
  generalize hptr' : σ.heap.heapStart + span pre + L.headBytes = ptr at *
  refine ⟨⟨{ σ.heap with mem := m' }, σ.live.filter fun r => r.1 != ptr⟩, 0, _, ?_,
    ⟨hw, joins_coalesced hj hj' hpre hpost, ?_, areas_apart hw, ?_⟩⟩
  · simp only [step, heq, bind_eq_bind, bind_some, Option.pure_def]
  · have hnodup : (σ.live.map Prod.fst).Nodup := h.live.nodup_iff.mpr (areas_nodup h.wellFormed)
    have herase := (h.live.trans (hareas.map Prod.fst)).erase ptr
    rw [hnodup.erase_eq_filter, List.map_cons, List.erase_cons_head, List.filter_map] at herase
    exact herase
  · intro r hr
    obtain ⟨hr, hne⟩ := mem_filter.mp hr
    obtain ⟨len, hlen, hmem⟩ := h.fits r hr
    refine ⟨len, hlen, (mem_cons.mp (hareas.mem_iff.mp hmem)).resolve_left ?_⟩
    intro he
    simp [(Prod.mk.inj he).1] at hne

theorem BlockAt_update {m : Memory} {a x : ℕ} {b : Block} (v : UInt8) (hb : BlockAt L m a b)
    (hl : a + L.headBytes ≤ x) (hu : x + L.footBytes < a + b.size) :
    BlockAt L (update m x v) a b := by
  have hL := layout_facts L
  have keep : ∀ c, c + L.wordBytes ≤ x ∨ x < c →
      load (update m x v) c L.wordBytes = load m c L.wordBytes := fun c hc =>
    load_congr fun y _ _ => update_of_ne (by omega) _ _
  exact ⟨hb.pos, hb.aligned, (keep _ (by omega)).trans hb.size_eq,
    (keep _ (by omega)).trans hb.magic_eq, (keep _ (by omega)).trans hb.foot_magic,
    (keep _ (by omega)).trans hb.foot_head⟩

theorem store_sound {addr : ℕ} (v : UInt8) (h : Sound L σ bs)
    (hp : ∃ r ∈ σ.live, r.1 ≤ addr ∧ addr < r.1 + r.2) :
    ∃ σ' q bs', step L σ (.store addr v) = some (σ', q) ∧ Sound L σ' bs' := by
  obtain ⟨r, hr, hl, hu⟩ := hp
  obtain ⟨len, hlen, hmem⟩ := h.fits r hr
  obtain ⟨pre, sz, post, rfl, hptr, hlen'⟩ := mem_areas hmem
  have hroom := h.wellFormed.used_room
  have hb := BlockAt_update v h.wellFormed.block.1
    (show σ.heap.heapStart + span pre + L.headBytes ≤ addr by omega) (by simp only; omega)
  have hw := h.wellFormed.replace [⟨sz, true⟩] hb (by simp)
    (fun x hx => update_of_ne (by simp only at hx; omega) _ _) fun _ => hroom
  exact ⟨_, 0, _, rfl, hw, h.coalesced, h.live, h.disjoint, h.fits⟩

theorem step_sound (h : Sound L σ bs) {c : Call} (hc : Legal L σ c) (hr : InRange L σ c) :
    ∃ σ' q bs', step L σ c = some (σ', q) ∧ Sound L σ' bs' := by
  cases c with
  | allocate c n ok =>
    obtain ⟨σ', q, bs', heq, hs, -⟩ := allocate_sound c n ok h hc hr
    exact ⟨σ', q, bs', heq, hs⟩
  | deallocate c ptr => exact deallocate_sound c h hc
  | store addr v => exact store_sound v h hc

theorem run_sound {cs : List Call} (h : Sound L σ bs)
    (hc : Along (next L) (fun σ c => Legal L σ c ∧ InRange L σ c) σ cs) :
    ∃ σ' bs', run (next L) σ cs = some σ' ∧ Sound L σ' bs' := by
  have hstep (σ) (c : Call) (h : ∃ bs, Sound L σ bs) (hc : Legal L σ c ∧ InRange L σ c) :
      ∃ σ', next L σ c = some σ' ∧ ∃ bs', Sound L σ' bs' := by
    obtain ⟨bs, hs⟩ := h
    obtain ⟨σ', q, bs', heq, hs'⟩ := step_sound hs hc.1 hc.2
    exact ⟨σ', by rw [next, heq]; rfl, bs', hs'⟩
  obtain ⟨σ', hrun, bs', hs⟩ := run_total hstep ⟨bs, h⟩ hc
  exact ⟨σ', bs', hrun, hs⟩

theorem heapInstall_sound (L : Layout) (s : Heap) (ok : ℕ → Bool) :
    ∃ s₀ bs, heapInstall L s ok = some s₀ ∧ Sound L ⟨s₀, []⟩ bs := by
  have hL := layout_facts L
  have hempty : WellFormed L { s with heapStart := L.kheapBase, heapEnd := L.kheapBase } [] :=
    ⟨rfl, L.base_lt_max.le, L.base_page, fun x hl hu => absurd hl (Nat.not_le.mpr hu), rfl,
      fun b hb => absurd hb not_mem_nil⟩
  have hrange : ExtendInRange L L.kheapBase heapInitSize := by
    have hfits := L.init_fits
    refine .inr ?_
    simp only [heapInitSize]
    omega
  obtain ⟨s', r, heq, hstart, hres⟩ := heapExtend_spec ok hempty hrange (by decide)
  have hinst : heapInstall L s ok = some s' := by
    simp only [heapInstall, heq, bind_eq_bind, bind_some, Option.pure_def]
  rcases hres with ⟨-, hw, -, -⟩ | ⟨k, pre, k', hj, -, -, hw, -⟩
  · exact ⟨s', [], hinst, hw, isChain_nil, List.Perm.nil, List.Pairwise.nil, by simp⟩
  have hnil : ∀ bs, JoinsLeft bs k pre k' → bs = [] → pre = [] := by
    intro bs hj hbs
    cases hj with
    | used => exact hbs
    | free => simp at hbs
  obtain rfl := hnil [] hj rfl
  exact ⟨s', _, hinst, hw, isChain_singleton _, List.Perm.nil, List.Pairwise.nil, by simp⟩

/-- From Heap_Install on, legal calls in range return, with the heap tiled by coalesced blocks whose
used ones are the live allocations, and NULL leaves the blocks as they were. -/
theorem runs_in_range_keep_tiling (L : Layout) (s : Heap) (ok : ℕ → Bool) :
    ∃ s₀, heapInstall L s ok = some s₀ ∧
      ∀ cs, Along (next L) (fun σ c => Legal L σ c ∧ InRange L σ c) ⟨s₀, []⟩ cs →
        ∃ σ bs, run (next L) ⟨s₀, []⟩ cs = some σ ∧ Sound L σ bs ∧
          ∀ c n ok', NoWrap L n → ExtendInRange L σ.heap.heapEnd (heapIntGetBlockSize L n) →
            ∃ σ' q, step L σ (.allocate c n ok') = some (σ', q) ∧
              (q = 0 → Sound L σ' bs ∧ σ'.live = σ.live) := by
  obtain ⟨s₀, bs₀, hinst, hsound⟩ := heapInstall_sound L s ok
  refine ⟨s₀, hinst, fun cs hcs => ?_⟩
  obtain ⟨σ, bs, hrun, hs⟩ := run_sound hsound hcs
  refine ⟨σ, bs, hrun, hs, fun c n ok' hn hr => ?_⟩
  obtain ⟨σ', q, bs', heq, hs', hnull⟩ := allocate_sound c n ok' hs hn hr
  refine ⟨σ', q, heq, fun hq => ?_⟩
  obtain ⟨rfl, hlive⟩ := hnull hq
  exact ⟨hs', hlive⟩

def unmapped : Heap := ⟨fun _ => 0, fun _ => false, 0, 0⟩

def someone : Caller := ⟨0, 0, 0⟩

def sampleCalls : List Call :=
  [.allocate someone 100 fun _ => true, .allocate someone 0x9000 fun _ => true,
    .store 0xC040001C 7, .deallocate someone 0xC040001C, .allocate someone 40 fun _ => true,
    .deallocate someone 0xC04000BC]

theorem runs_in_range_sample : ∃ s₀ σ bs, heapInstall x86 unmapped (fun _ => true) = some s₀ ∧
      Along (next x86) (fun σ c => Legal x86 σ c ∧ InRange x86 σ c) ⟨s₀, []⟩ sampleCalls ∧
      run (next x86) ⟨s₀, []⟩ sampleCalls = some σ ∧ Sound x86 σ bs := by
  obtain ⟨s₀, hinst, h⟩ := runs_in_range_keep_tiling x86 unmapped fun _ => true
  have hcheck : ∀ t ∈ heapInstall x86 unmapped fun _ => true,
      Along (next x86) (fun σ c => Legal x86 σ c ∧ InRange x86 σ c) ⟨t, []⟩ sampleCalls := by
    decide +kernel
  have halong := hcheck s₀ hinst
  obtain ⟨σ, bs, hrun, hs, -⟩ := h sampleCalls halong
  exact ⟨s₀, σ, bs, hinst, halong, hrun, hs⟩

/-- A refused extension leaves the page at gHeapEnd mapped; a request just below the
address space then wraps to zero pages. -/
def wrapCalls : List Call :=
  [.allocate someone 0x9000 fun i => i = 0, .allocate someone 0xFFFFF830 fun _ => false]

theorem wrapped_extend_breaks_tiling : ∃ s₀ σ, heapInstall x86 unmapped (fun _ => true) = some s₀ ∧
      Along (next x86) (Legal x86) ⟨s₀, []⟩ wrapCalls ∧ run (next x86) ⟨s₀, []⟩ wrapCalls = some σ ∧
      ∀ bs, ¬ Sound x86 σ bs := by
  have hend : ((heapInstall x86 unmapped fun _ => true).bind fun s₀ =>
      (run (next x86) ⟨s₀, []⟩ wrapCalls).map fun σ => (decide (σ.heap.heapStart < σ.heap.heapEnd),
        load σ.heap.mem (σ.heap.heapStart + load σ.heap.mem σ.heap.heapStart x86.wordBytes -
          x86.footBytes) x86.wordBytes)) = some (true, 0) := by
    decide +kernel
  obtain ⟨s₀, hinst, hrun⟩ := bind_eq_some_iff.mp hend
  obtain ⟨σ, hrun, hval⟩ := map_eq_some_iff.mp hrun
  obtain ⟨hlt, hfoot⟩ := Prod.mk.inj hval
  refine ⟨s₀, σ, hinst, ⟨?_, fun _ _ => ⟨?_, fun _ _ => trivial⟩⟩, hrun, fun bs h => ?_⟩
  · exact show NoWrap x86 0x9000 by decide
  · exact show NoWrap x86 0xFFFFF830 by decide
  · have hmagic := first_foot h.wellFormed (of_decide_eq_true hlt)
    rw [hfoot] at hmagic
    exact absurd hmagic (by decide)

end KernelHeapRuns
