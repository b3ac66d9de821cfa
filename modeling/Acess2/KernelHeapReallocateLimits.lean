import Acess2.KernelHeapReallocate
import Acess2.KernelHeapRuns
import Acess2.PartialTriples

/-! # Where Heap_Reallocate goes wrong

Outside the conditions under which a reallocation keeps its promise there is always an
environment in which it does not: the neighbours of the first and the last block are read
without a bounds check, the downward extension cannot leave a remainder, and a request
near the end of the address space wraps in Heap_Extend. -/
namespace KernelHeapReallocateLimits

open ByteMemory List Option Nat KernelHeapModel KernelHeapBlocks KernelHeapAreas
open KernelHeapAllocate KernelHeapGrow KernelHeapReallocate KernelHeapRuns PartialTriples
  GuardedRuns

variable {L : Layout}

section HeapEnd

variable {e : ℕ} {a k v n head foot : ℕ} {s : Heap} {c : Caller}

variable (hs : s.heapEnd = e)
include hs

theorem write_heapEnd : Ensures (s.write a k v) fun t => t.heapEnd = e := by
  unfold Heap.write
  exact ensures_ite (ensures_some hs) ensures_none

theorem write_then {β : Type} {f : Heap → Option β} {Q : β → Prop}
    (h : ∀ t, t.heapEnd = e → Ensures (f t) Q) :
    Ensures (s.write a k v >>= f) Q := ensures_bind (write_heapEnd hs) h

theorem memcpy_heapEnd {d : ℕ} : Ensures (s.memcpy d a n) fun t => t.heapEnd = e := by
  unfold Heap.memcpy
  exact ensures_ite (ensures_some hs) ensures_none

theorem createBlock_heapEnd {size : ℕ} :
    Ensures (createBlock L s head size) fun t => t.heapEnd = e := by
  refine write_then hs fun s hs => ?_
  refine write_then hs fun s hs => ?_
  refine ensures_bind_any fun foot => ?_
  exact write_then hs fun s hs => write_heapEnd hs

theorem mergeLeft_heapEnd : Ensures (mergeLeft L s head foot) fun r => r.1.heapEnd = e := by
  refine ensures_ite (ensures_bind_any fun prev => ensures_bind_any fun magic => ?_)
    (ensures_some hs)
  refine ensures_ite (ensures_bind_any fun prevSize => ensures_bind_any fun size => ?_)
    (ensures_some hs)
  refine write_then hs fun s hs => ensures_bind_any fun prev => ?_
  refine write_then hs fun s hs => ?_
  refine write_then hs fun s hs => ?_
  refine write_then hs fun s hs => ensures_bind_any fun newHead => ?_
  refine write_then hs fun s hs => ?_
  exact write_then hs fun s hs => ensures_some hs

theorem mergeRight_heapEnd : Ensures (mergeRight L s head foot) fun r => r.1.heapEnd = e := by
  refine ensures_bind_any fun next => ensures_ite (ensures_bind_any fun magic => ?_)
    (ensures_some hs)
  refine ensures_ite (ensures_bind_any fun size => ensures_bind_any fun nextSize => ?_)
    (ensures_some hs)
  refine write_then hs fun s hs => ensures_bind_any fun foot => ?_
  iterate 4 refine write_then hs fun s hs => ?_
  exact write_then hs fun s hs => ensures_some hs

theorem heapMerge_heapEnd : Ensures (heapMerge L s head) fun r => r.1.heapEnd = e := by
  refine ensures_bind_any fun foot => ensures_bind_any fun next => ?_
  refine ensures_ite ensures_none ?_
  exact ensures_bind (mergeLeft_heapEnd hs) fun r hr => mergeRight_heapEnd hr

theorem markUsed_heapEnd : Ensures (markUsed L s c head n) fun t => t.heapEnd = e := by
  iterate 3 refine write_then hs fun s hs => ?_
  exact write_then hs fun s hs => write_heapEnd hs

theorem splitBlock_heapEnd {best bytes : ℕ} :
    Ensures (splitBlock L s c best bytes n) fun t => t.heapEnd = e := by
  have hfront : Ensures (takeFront L s c best bytes n) fun t => t.heapEnd = e := by
    iterate 5 refine write_then hs fun s hs => ?_
    refine write_then hs fun s hs => ensures_bind_any fun foot => ?_
    exact write_then hs fun s hs => write_heapEnd hs
  refine ensures_bind_any fun size => ensures_bind hfront fun s hs => ?_
  refine ensures_bind_any fun newhead => write_then hs fun s hs => ?_
  iterate 4 refine write_then hs fun s hs => ?_
  exact ensures_bind_any fun foot => write_heapEnd hs

theorem heapDeallocate_heapEnd {ptr : ℕ} :
    Ensures (heapDeallocate L s c ptr) fun t => t.heapEnd = e := by
  have hkeep := ensures_some (Q := fun t : Heap => t.heapEnd = e) hs
  refine ensures_ite hkeep (ensures_ite hkeep (ensures_ite hkeep (ensures_ite hkeep ?_)))
  refine ensures_bind_any fun magic => ensures_ite hkeep (ensures_ite hkeep ?_)
  refine ensures_bind_any fun foot => ensures_bind_any fun fhead =>
    ensures_bind_any fun fmagic => ?_
  refine ensures_ite hkeep (ensures_ite hkeep ?_)
  have hmark : Ensures (markFree L s c (L.sub ptr L.headBytes)) fun t => t.heapEnd = e := by
    refine write_then hs fun s hs => ?_
    refine write_then hs fun s hs => ?_
    exact write_then hs fun s hs => write_heapEnd hs
  refine ensures_bind hmark fun s hs => ?_
  exact ensures_bind (heapMerge_heapEnd hs) fun r hr => ensures_some hr

end HeapEnd

variable {m : Memory} {a a' b e : ℕ} {xs bs : List Block}

theorem magicOf_inj {u v : Bool} (h : magicOf u = magicOf v) : u = v := by
  revert h
  cases u <;> cases v <;> decide

theorem tiles_prefix (hx : Tiles L m a xs b) (hb : Tiles L m a bs e) (hle : b ≤ e) :
    ∃ back, bs = xs ++ back ∧ Tiles L m b back e := by
  induction xs generalizing a bs with
  | nil =>
    obtain rfl : a = b := hx
    exact ⟨bs, rfl, hb⟩
  | cons x xs ih =>
    have hend := tiles_end hx.2
    have hpos := hx.1.pos
    cases bs with
    | nil =>
      obtain rfl : a = e := hb
      omega
    | cons y bs =>
      have hsize : x.size = y.size := hx.1.size_eq.symm.trans hb.1.size_eq
      have hused := magicOf_inj (hx.1.magic_eq.symm.trans hb.1.magic_eq)
      obtain rfl : x = y := Block.ext hsize hused
      obtain ⟨back, rfl, htiles⟩ := ih hx.2 hb.2
      exact ⟨back, rfl, htiles⟩

theorem tiles_suffix (hx : Tiles L m a xs e) (hb : Tiles L m a' bs e) (hle : a' ≤ a) :
    ∃ front, bs = front ++ xs ∧ Tiles L m a' front a := by
  induction xs using reverseRecOn generalizing bs e with
  | nil =>
    obtain rfl : a = e := hx
    exact ⟨bs, by simp, hb⟩
  | append_singleton xs x ih =>
    obtain ⟨hxs, hlast, hxe⟩ := tiles_append.mp hx
    have hpos := hlast.pos
    rcases eq_nil_or_concat bs with rfl | ⟨bs, y, rfl⟩
    · obtain rfl : a' = e := hb
      have hxe' : a + span xs + x.size = a' := hxe
      omega
    rw [concat_eq_append] at *
    obtain ⟨hbs, hlast', hye⟩ := tiles_append.mp hb
    have hxe' : a + span xs + x.size = e := hxe
    have hye' : a' + span bs + y.size = e := hye
    -- both last blocks end at `e`, so they share the back link
    have hstart : a + span xs = a' + span bs := by
      rw [← hlast.foot_head, ← hlast'.foot_head, hxe', hye']
    have hused := magicOf_inj (hlast.magic_eq.symm.trans (hstart ▸ hlast'.magic_eq))
    obtain rfl : x = y := Block.ext (by omega) hused
    obtain ⟨front, rfl, htiles⟩ := ih hxs (hstart ▸ hbs)
    exact ⟨front, by rw [append_assoc], htiles⟩

/-- The same heap in another environment: whatever lies outside may differ. -/
structure SameHeap (s s' : Heap) : Prop where
  start_eq : s'.heapStart = s.heapStart
  end_eq : s'.heapEnd = s.heapEnd
  mem_eq : ∀ x, s.heapStart ≤ x → x < s.heapEnd → s'.mem x = s.mem x
  mapped : ∀ x, s.heapStart ≤ x → x < s.heapEnd → s'.mapped (x / 4096) = true

variable {s : Heap}

theorem SameHeap.wellFormed {s' : Heap} (hs : SameHeap s s')
    (h : WellFormed L s bs) : WellFormed L s' bs := by
  refine ⟨hs.start_eq.trans h.start_eq, hs.end_eq ▸ h.end_le, hs.end_eq ▸ h.end_page, ?_, ?_,
    h.room⟩
  · rw [hs.start_eq, hs.end_eq]
    exact hs.mapped
  · rw [hs.start_eq, hs.end_eq]
    exact tiles_congr h.tiles hs.mem_eq

def isolate (s : Heap) : Heap :=
  { s with mapped := fun g => decide (s.heapStart / 4096 ≤ g ∧ g < s.heapEnd / 4096) }

theorem isolate_sameHeap (h : WellFormed L s bs) : SameHeap s (isolate s) := by
  refine ⟨rfl, rfl, fun _ _ _ => rfl, fun x hl hu => ?_⟩
  have hpage := h.end_page
  simp only [isolate, decide_eq_true_eq]
  omega

variable {pre post : List Block} {sz n : ℕ} {c own : Caller} {ok : ℕ → Bool}

theorem last_faults (h : WellFormed L s (pre ++ [⟨sz, true⟩]))
    (hlt : sz < heapIntGetBlockSize L n) (hmap : s.mapped (s.heapEnd / 4096) = false) :
    heapReallocate L s c own (s.heapStart + span pre + L.headBytes) n ok = none := by
  obtain ⟨-, hend, -, -⟩ := h.block
  have hL := layout_core L
  have hw := L.word_cases
  have hpage := h.end_page
  simp only [span_nil, add_zero] at hend
  have hacc : ¬ s.Accessible (s.heapEnd + L.magicOfs) L.wordBytes := by
    intro hacc
    have hfirst := hacc 0 (by omega)
    rw [show (s.heapEnd + L.magicOfs + 0) / 4096 = s.heapEnd / 4096 by omega, hmap] at hfirst
    exact absurd hfirst (by simp)
  rw [heapReallocate_eq c own ok h hlt, ← hend]
  simp only [roomWith, headMagic, Heap.read, hacc, if_false, bind_eq_bind, bind_none]

theorem first_faults {ns : ℕ} {used : Bool} {rest : List Block}
    (h : WellFormed L s (⟨sz, true⟩ :: ⟨ns, used⟩ :: rest))
    (hlt : sz < heapIntGetBlockSize L n)
    (hup : ¬ (used = false ∧ heapIntGetBlockSize L n ≤ ns + sz))
    (hmap : s.mapped (s.heapStart / 4096 - 1) = false) :
    heapReallocate L s c own (s.heapStart + span [] + L.headBytes) n ok = none := by
  have h' : WellFormed L s ([] ++ ⟨sz, true⟩ :: ⟨ns, used⟩ :: rest) := h
  obtain ⟨-, hend, hmod, hpos⟩ := h'.block
  have hL := layout_core L
  have hw := L.word_cases
  have hpage : s.heapStart % 4096 = 0 := h.start_eq ▸ L.base_page
  have hacc : ¬ s.Accessible (s.heapStart - L.footBytes + L.wordBytes) L.wordBytes := by
    intro hacc
    have hfirst := hacc 0 (by omega)
    rw [show (s.heapStart - L.footBytes + L.wordBytes + 0) / 4096 = s.heapStart / 4096 - 1 by
      omega, hmap] at hfirst
    exact absurd hfirst (by simp)
  rw [heapReallocate_eq c own ok h' hlt, roomWith_next h', bind_some]
  simp only [hup, decide_false, Bool.false_eq_true, if_false, span_nil, add_zero]
  rw [heapPrevFoot, sub_eq (by omega) (by omega), footHead, Heap.read, if_neg hacc, bind_none]

/-- Where the downward extension does not fill the free block below, no tiling is left. -/
theorem inexact_untiled {ps k : ℕ} (c : Caller)
    (h : WellFormed L s (pre ++ ⟨ps, false⟩ :: ⟨sz, true⟩ :: post)) (hlt : sz < k)
    (hk : k < ps + sz) (hal : L.minSize ∣ k) :
    ∃ m', growDown L s c (s.heapStart + span pre + ps) (s.heapStart + span pre)
        (s.heapStart + span pre + ps + L.headBytes) k n = some { s with mem := m' } ∧
      ∀ bs, ¬ Tiles L m' s.heapStart bs s.heapEnd := by
  obtain ⟨hp, hend, hmod, -⟩ := h.block
  obtain ⟨hpre, hrest⟩ := tiles_append.mp h.tiles
  have hu : BlockAt L s.mem (s.heapStart + span pre + ps) ⟨sz, true⟩ := hrest.2.1
  have hroom : L.headBytes + L.footBytes ≤ sz := h.room ⟨sz, true⟩ (by simp) rfl
  have hpost : Tiles L s.mem (s.heapStart + span pre + ps + sz) post s.heapEnd := hrest.2.2
  simp only [span_cons] at hend
  obtain ⟨m', heq, hframe, hnew, hold, hback, -⟩ := growDown_spec s.heapStart s.heapEnd c n
    (fun x hl hx => h.mapped x (by omega) (by omega)) (by omega) hroom rfl hlt hk.le hal hp hu
  refine ⟨m', heq, fun bs hbs => ?_⟩
  have hpost' := tiles_congr hpost fun x hl _ => hframe x (.inr hl)
  have hpre' := tiles_congr hpre fun x _ hx => hframe x (.inl hx)
  -- the old foot still links to the old head, so a block of the tiling starts there
  obtain ⟨front, -, hfront⟩ := tiles_suffix hpost' hbs (by omega)
  rcases eq_nil_or_concat front with rfl | ⟨front, b, rfl⟩
  · have hnil : s.heapStart = s.heapStart + span pre + ps + sz := hfront
    omega
  rw [concat_eq_append] at hfront
  obtain ⟨hbelow, hb, hbend⟩ := tiles_append.mp hfront
  have hbend' : s.heapStart + span front + b.size = s.heapStart + span pre + ps + sz := hbend
  have hstart : s.heapStart + span front = s.heapStart + span pre + ps := by
    rw [← hb.foot_head, hbend']
    exact hback hk
  -- but the grown block either reaches past the old head, or its head has been cleared
  obtain ⟨back, -, hbackTiles⟩ := tiles_prefix hpre' hbelow (by omega)
  cases back with
  | nil =>
    have hnil : s.heapStart + span pre = s.heapStart + span front := hbackTiles
    omega
  | cons x back =>
    have hx : x.size = k := hbackTiles.1.size_eq.symm.trans hnew
    have hxend := tiles_end hbackTiles.2
    have hzero := hb.size_eq
    rw [hstart, hold (by omega)] at hzero
    have := hb.pos
    omega

theorem extendPages_granted (s : Heap) (i p : ℕ) :
    ∃ mp, extendPages L (fun _ => true) s i p = ({ s with mapped := mp }, true) := by
  induction p generalizing s i with
  | zero => exact ⟨s.mapped, rfl⟩
  | succ p ih =>
    obtain ⟨mp, heq⟩ := ih
      { s with mapped := Function.update s.mapped (L.add s.heapEnd (4096 * i) / 4096) true }
      (i + 1)
    exact ⟨mp, by rw [extendPages, if_pos rfl, heq]⟩

variable {bytes : ℕ}

theorem heapExtend_out_of_range (hle : s.heapEnd ≤ L.kheapMax)
    (hpos : bytes ≠ 0) (hb : bytes < L.modulus) (hr : ¬ ExtendInRange L s.heapEnd bytes)
    (hmap : s.mapped (s.heapEnd / 4096) = false) :
    heapExtend L s bytes (fun _ => true) = none ∨ ∃ e, e < s.heapEnd ∧
        Ensures (heapExtend L s bytes fun _ => true) fun r => r.1.heapEnd = e := by
  have hL := layout_facts L
  obtain ⟨hfull, hwrap⟩ := not_or.mp hr
  unfold heapExtend
  rw [if_neg hfull, if_neg hpos]
  by_cases hround : L.modulus ≤ bytes + 0xFFF
  · -- the page count wraps to zero
    left
    have hpages : L.add bytes 0xFFF / 4096 = 0 := by
      rw [Layout.add, mod_eq_sub_mod hround, mod_eq_of_lt (by omega)]
      omega
    have hnew : L.add s.heapEnd 0 = s.heapEnd := add_eq (by omega)
    have hacc : ¬ s.Accessible s.heapEnd L.wordBytes := by
      intro hacc
      have hfirst := hacc 0 (by omega)
      rw [add_zero, hmap] at hfirst
      exact absurd hfirst (by simp)
    simp only [hpages, zero_mul, hnew, not_lt.mpr hle, extendPages, createBlock,
      setSize, Heap.write, hacc, bind_eq_bind, bind_none, ↓reduceIte]
  · -- the new end wraps
    right
    have hpages : L.add bytes 0xFFF / 4096 = (bytes + 0xFFF) / 4096 := by rw [add_eq (by omega)]
    obtain ⟨p, hp⟩ : ∃ p, (bytes + 0xFFF) / 4096 = p := ⟨_, rfl⟩
    have hnew : L.add s.heapEnd (p * 4096) = s.heapEnd + p * 4096 - L.modulus := by
      rw [Layout.add, mod_eq_sub_mod (by omega), mod_eq_of_lt (by omega)]
    refine ⟨s.heapEnd + p * 4096 - L.modulus, by omega, ?_⟩
    obtain ⟨mp, hgrant⟩ := extendPages_granted (L := L) s 0 p
    simp only [hpages, hp, hnew, hgrant]
    rw [if_neg (by omega)]
    exact ensures_bind (createBlock_heapEnd rfl) fun t ht => heapMerge_heapEnd ht

theorem area_fits {q len : ℕ} (h : WellFormed L s bs)
    (hr : (q, len) ∈ dataAreas L s.heapStart bs) (hn : NoWrap L n) (hlen : n ≤ len) :
    heapIntGetBlockSize L n ≤ L.kheapMax - L.kheapBase := by
  obtain ⟨front, back, rfl, -⟩ := wellFormed_area h hr
  obtain ⟨hb, hend, -, -⟩ := h.block
  obtain ⟨hal, -, hround⟩ := heapIntGetBlockSize_spec hn
  have hle := h.end_le
  have hst := h.start_eq
  simp only at hend
  by_contra hbig
  obtain ⟨d, hd⟩ : ∃ d, heapIntGetBlockSize L n = len + L.headBytes + L.footBytes + d :=
    ⟨heapIntGetBlockSize L n - (len + L.headBytes + L.footBytes), by omega⟩
  have hdal : L.minSize ∣ d := (Nat.dvd_add_right hb.aligned).mp (hd ▸ hal)
  have hdm := le_of_dvd (by omega) hdal
  omega

def afterExtend (L : Layout) (c : Caller) (bytes n : ℕ) (r : Heap × ℕ) : Option (Heap × ℕ) :=
  if r.2 = 0 then some (r.1, 0)
  else (headSize L r.1 r.2).bind fun size =>
    if size = bytes then (markUsed L r.1 c r.2 n).bind fun t => some (t, r.2 + L.headBytes)
    else (splitBlock L r.1 c r.2 bytes n).bind fun t => some (t, r.2 + L.headBytes)

theorem afterExtend_heapEnd {r : Heap × ℕ} (hr : r.1.heapEnd = e) :
    Ensures (afterExtend L c bytes n r) fun t => t.1.heapEnd = e := by
  refine ensures_ite (ensures_some hr) (ensures_bind_any fun size => ensures_ite ?_ ?_)
  · exact ensures_bind (markUsed_heapEnd hr) fun t ht => ensures_some ht
  · exact ensures_bind (splitBlock_heapEnd hr) fun t ht => ensures_some ht

theorem heapAllocate_extends (h : WellFormed L s bs) (hn : n ≠ 0)
    (hsmall : ∀ b ∈ bs, b.size < heapIntGetBlockSize L n) :
    heapAllocate L s c n ok = (heapExtend L s (heapIntGetBlockSize L n) ok).bind
      (afterExtend L c (heapIntGetBlockSize L n) n) := by
  have hfind : ∃ r, findBlock L s (heapIntGetBlockSize L n) L.modulus (s.heapStart + span [])
      none uintMax = some r ∧ Fits s.heapStart (heapIntGetBlockSize L n) ([] ++ bs) r :=
    findBlock_spec _ _ none uintMax h (length_lt_modulus h) trivial
  rw [span_nil, add_zero, nil_append] at hfind
  obtain ⟨r, hfind, hfits⟩ := hfind
  have hnone : r = .best none := by
    match r with
    | .corrupt => exact absurd hfits id
    | .perfect head =>
      obtain ⟨pre, post, rfl, -⟩ := hfits
      exact absurd (hsmall _ (mem_append_right _ mem_cons_self)) (lt_irrefl _)
    | .best (some best) =>
      obtain ⟨pre, k, post, hlt, rfl, -⟩ := hfits
      have := hsmall ⟨k, false⟩ (mem_append_right _ mem_cons_self)
      simp only at this
      omega
    | .best none => rfl
  subst hnone
  simp only [heapAllocate, hn, heapValidate_eq h, hfind, bind_eq_bind, bind_some,
    Option.pure_def, ↓reduceIte]
  rfl

theorem reallocMove_heapEnd {head ptr : ℕ}
    (h : Ensures (heapAllocate L s c n ok) fun r => r.1.heapEnd = e) :
    Ensures (reallocMove L s c own head ptr n ok) fun r => r.1.heapEnd = e := by
  refine ensures_bind h fun r hr => ensures_ite (ensures_some hr) ?_
  have hlabel : Ensures (relabel L r.1 c (L.sub r.2 L.headBytes) n) fun t => t.heapEnd = e := by
    refine write_then hr fun s hs => ?_
    exact write_then hs fun s hs => write_heapEnd hs
  refine ensures_bind hlabel fun s hs => ensures_bind_any fun size => ?_
  refine ensures_bind_any fun newSize => ensures_ite ?_ ensures_none
  refine ensures_bind (memcpy_heapEnd hs) fun s hs => ?_
  refine ensures_bind (heapDeallocate_heapEnd hs) fun s hs => ?_
  exact ensures_bind_any fun _ => ensures_some hs

/-- A request out of range is not answered by NULL and cannot be answered by a block. -/
theorem wrap_breaks (h : WellFormed L s (pre ++ ⟨sz, true⟩ :: post)) (hn : NoWrap L n)
    (hlt : sz < heapIntGetBlockSize L n)
    (hr : ¬ ExtendInRange L s.heapEnd (heapIntGetBlockSize L n))
    (hmap : s.mapped (s.heapEnd / 4096) = false) :
    ¬ Preserves L s pre sz post n (reallocMove L s c own (s.heapStart + span pre)
      (s.heapStart + span pre + L.headBytes) n fun _ => true) := by
  have hL := layout_facts L
  have hle := h.end_le
  have hst := h.start_eq
  obtain ⟨hal, hfit, hround⟩ := heapIntGetBlockSize_spec hn
  have hbig : L.kheapMax - L.kheapBase < heapIntGetBlockSize L n := by
    obtain ⟨hfull, hwrap⟩ := not_or.mp hr
    omega
  have hzero : n ≠ 0 := by
    rintro rfl
    have hb := h.block.1.aligned
    have hroom := h.used_room
    obtain ⟨d, hd⟩ : ∃ d, heapIntGetBlockSize L 0 = sz + d :=
      ⟨heapIntGetBlockSize L 0 - sz, by omega⟩
    have hdm := Nat.le_of_dvd (by omega) ((Nat.dvd_add_right hb).mp (hd ▸ hal))
    omega
  have hmodN : heapIntGetBlockSize L n < L.modulus := by
    unfold NoWrap at hn
    omega
  have hsmall : ∀ b ∈ pre ++ ⟨sz, true⟩ :: post, b.size < heapIntGetBlockSize L n := by
    intro b hb
    obtain ⟨front, back, hbs⟩ := append_of_mem hb
    have hend := tiles_end h.tiles
    rw [hbs, span_append, span_cons] at hend
    omega
  have hext : heapAllocate L s c n (fun _ => true) = _ := heapAllocate_extends h hzero hsmall
  rintro ⟨s', q, heq, hstart, hres⟩
  rcases heapExtend_out_of_range hle (by omega) hmodN hr hmap with hnone | ⟨e, he, hens⟩
  · rw [reallocMove, hext, hnone] at heq
    exact absurd heq (by simp)
  have hend : s'.heapEnd = e := reallocMove_heapEnd (by
    rw [hext]
    exact ensures_bind hens fun r hr => afterExtend_heapEnd hr) _ heq
  rcases hres with ⟨-, -, -, hsame⟩ | ⟨bs, len, hw, hlen, hareas, -⟩
  · omega
  · have hmem := hareas.mem_iff.mpr mem_cons_self
    rw [← hstart] at hmem
    have := area_fits hw hmem hn hlen
    omega

theorem reallocate_preserves_iff {s : Heap} {pre post : List Block} {sz n : ℕ}
    (h : WellFormed L s (pre ++ ⟨sz, true⟩ :: post)) (hn : NoWrap L n) :
    (∀ s', SameHeap s s' → ∀ c own ok, Preserves L s' pre sz post n
      (heapReallocate L s' c own (s'.heapStart + span pre + L.headBytes) n ok)) ↔
      Safe L pre sz post (heapIntGetBlockSize L n) := by
  constructor
  swap
  · intro hsafe s' hs c own ok
    exact safe_preserves c own ok (hs.wellFormed h) hn hsafe
  intro hall
  have hiso := isolate_sameHeap h
  have hw := hiso.wellFormed h
  have key := hall _ hiso ⟨0, 0, 0⟩ ⟨0, 0, 0⟩ fun _ => true
  have hend : s.heapEnd = L.kheapBase + span (pre ++ ⟨sz, true⟩ :: post) := by
    rw [tiles_end h.tiles, h.start_eq]
  have htop : (isolate s).mapped ((isolate s).heapEnd / 4096) = false := by simp [isolate]
  have hbot : (isolate s).mapped ((isolate s).heapStart / 4096 - 1) = false := by
    have hpos := h.block.2.2.2
    simp only [isolate, decide_eq_false_iff_not]
    omega
  generalize isolate s = t at *
  rcases lt_or_ge sz (heapIntGetBlockSize L n) with hlt | hle
  swap
  · exact .keep hle
  obtain ⟨hal, -, -⟩ := heapIntGetBlockSize_spec hn
  rcases post with _ | ⟨⟨ns, used⟩, rest⟩
  · rw [last_faults hw hlt htop] at key
    obtain ⟨_, _, hnone, -⟩ := key
    exact absurd hnone (by simp)
  by_cases hup : used = false ∧ heapIntGetBlockSize L n ≤ ns + sz
  · obtain ⟨rfl, hle⟩ := hup
    exact .up ns rest rfl (by omega)
  rcases eq_nil_or_concat pre with rfl | ⟨front, ⟨ps, below⟩, rfl⟩
  · rw [first_faults hw hlt hup hbot] at key
    obtain ⟨_, _, hnone, -⟩ := key
    exact absurd hnone (by simp)
  rw [concat_eq_append] at *
  obtain ⟨hprev, hroom⟩ := roomWith_prev (N := heapIntGetBlockSize L n) hw
  rw [heapReallocate_eq _ _ _ hw hlt, roomWith_next hw, bind_some] at key
  simp only [hup, decide_false, Bool.false_eq_true, if_false, hprev, hroom, bind_some] at key
  by_cases hdown : below = false ∧ heapIntGetBlockSize L n ≤ ps + sz
  · obtain ⟨rfl, hle⟩ := hdown
    rcases eq_or_lt_of_le hle with heq | hlt'
    · exact .down front ps rfl (by simp) heq
    have hw' : WellFormed L t (front ++ ⟨ps, false⟩ :: ⟨sz, true⟩ :: ⟨ns, used⟩ :: rest) := by
      simpa using hw
    obtain ⟨m', heq, hbad⟩ := inexact_untiled (n := n) ⟨0, 0, 0⟩ hw' hlt hlt' hal
    simp only [span_append, span_cons, span_nil, add_zero, ← add_assoc, hle, and_self,
      decide_true, if_true, heq, bind_some] at key
    obtain ⟨s', q, hres, -, hcase⟩ := key
    cases hres
    rcases hcase with ⟨-, hwf, -⟩ | ⟨bs, -, hwf, -⟩
    · exact absurd hwf.tiles (hbad _)
    · exact absurd hwf.tiles (hbad bs)
  · simp only [hdown, decide_false, Bool.false_eq_true, if_false] at key
    refine .move (by simp) (by simp) ?_ ?_
    · intro front' ps' hpre
      obtain ⟨-, rfl, rfl⟩ := by simpa using hpre
      by_contra hge
      exact hdown ⟨rfl, by omega⟩
    · by_contra hr
      rw [← hend, ← hiso.end_eq] at hr
      exact wrap_breaks hw hn hlt hr htop key

def gapCalls : List Call :=
  [.allocate someone 100 fun _ => true, .allocate someone 40 fun _ => true,
    .allocate someone 40 fun _ => true, .deallocate someone 0xC040001C]

def gapBlocks : List Block := [⟨160, false⟩, ⟨96, true⟩, ⟨96, true⟩, ⟨32416, false⟩]

theorem gap_wellFormed {s₀ : Heap} {σ : State}
    (hinst : heapInstall x86 unmapped (fun _ => true) = some s₀)
    (hrun : run (next x86) ⟨s₀, []⟩ gapCalls = some σ) : WellFormed x86 σ.heap gapBlocks := by
  obtain ⟨s₁, bs₀, hinst', hsound⟩ := heapInstall_sound x86 unmapped fun _ => true
  obtain rfl : s₀ = s₁ := some.inj (hinst.symm.trans hinst')
  have hcheck : ∀ t ∈ heapInstall x86 unmapped fun _ => true,
      Along (next x86) (fun σ c => Legal x86 σ c ∧ InRange x86 σ c) ⟨t, []⟩ gapCalls := by
    decide +kernel
  have htiles : ∀ t ∈ heapInstall x86 unmapped fun _ => true, ∀ τ ∈ run (next x86) ⟨t, []⟩ gapCalls,
        Tiles x86 τ.heap.mem τ.heap.heapStart gapBlocks τ.heap.heapEnd := by
    decide +kernel
  obtain ⟨σ', bs, hrun', hs⟩ := run_sound hsound (hcheck s₀ hinst)
  obtain rfl : σ = σ' := some.inj (hrun.symm.trans hrun')
  obtain ⟨back, rfl, hback⟩ := tiles_prefix (htiles s₀ hinst σ hrun) hs.wellFormed.tiles le_rfl
  cases back with
  | nil => simpa using hs.wellFormed
  | cons b back =>
    have hpos := hback.1.pos
    have hend := tiles_end hback.2
    omega

theorem reallocate_preserves_sample : ∃ s, WellFormed x86 s gapBlocks ∧ NoWrap x86 150 ∧
      ((∀ s', SameHeap s s' → ∀ c own ok, Preserves x86 s' [⟨160, false⟩] 96
        [⟨96, true⟩, ⟨32416, false⟩] 150 (heapReallocate x86 s' c own
          (s'.heapStart + span [⟨160, false⟩] + x86.headBytes) 150 ok)) ↔
        Safe x86 [⟨160, false⟩] 96 [⟨96, true⟩, ⟨32416, false⟩] (heapIntGetBlockSize x86 150)) := by
  have hsome : ((heapInstall x86 unmapped fun _ => true).bind fun s₀ =>
      run (next x86) ⟨s₀, []⟩ gapCalls).isSome = true := by
    decide +kernel
  obtain ⟨σ, hσ⟩ := isSome_iff_exists.mp hsome
  obtain ⟨s₀, hinst, hrun⟩ := bind_eq_some_iff.mp hσ
  have hw := gap_wellFormed hinst hrun
  have hn : NoWrap x86 150 := by decide
  have hw' : WellFormed x86 σ.heap
      ([⟨160, false⟩] ++ ⟨96, true⟩ :: [⟨96, true⟩, ⟨32416, false⟩]) := hw
  exact ⟨σ.heap, hw, hn, reallocate_preserves_iff hw' hn⟩

/-- The new foot has no magic, and the rest of the gap belongs to no block. -/
theorem inexact_downward_breaks_heap : ∃ s₀ σ, heapInstall x86 unmapped (fun _ => true) = some s₀ ∧
      run (next x86) ⟨s₀, []⟩ gapCalls = some σ ∧ WellFormed x86 σ.heap gapBlocks ∧ NoWrap x86 150 ∧
      ¬ Preserves x86 σ.heap [⟨160, false⟩] 96 [⟨96, true⟩, ⟨32416, false⟩] 150
        (heapReallocate x86 σ.heap someone someone
          (σ.heap.heapStart + span [⟨160, false⟩] + x86.headBytes) 150 fun _ => true) := by
  have hend : ((heapInstall x86 unmapped fun _ => true).bind fun s₀ =>
      (run (next x86) ⟨s₀, []⟩ gapCalls).bind fun σ => (heapReallocate x86 σ.heap someone someone
        (σ.heap.heapStart + span [⟨160, false⟩] + x86.headBytes) 150 fun _ => true).map
      fun r => (r.2, decide (r.1.heapStart < r.1.heapEnd), load r.1.mem (r.1.heapStart +
        load r.1.mem r.1.heapStart x86.wordBytes - x86.footBytes) x86.wordBytes)) =
      some (0xC040001C, true, 0) := by
    decide +kernel
  obtain ⟨s₀, hinst, hrest⟩ := bind_eq_some_iff.mp hend
  obtain ⟨σ, hrun, hres⟩ := bind_eq_some_iff.mp hrest
  obtain ⟨⟨s', q⟩, hres, hval⟩ := map_eq_some_iff.mp hres
  obtain ⟨hq, hlt, hfoot⟩ : q = 0xC040001C ∧ decide (s'.heapStart < s'.heapEnd) = true ∧
      load s'.mem (s'.heapStart + load s'.mem s'.heapStart x86.wordBytes - x86.footBytes)
        x86.wordBytes = 0 := by simpa using hval
  refine ⟨s₀, σ, hinst, hrun, gap_wellFormed hinst hrun, by decide, ?_⟩
  rintro ⟨t, q', heq, -, hcase⟩
  cases hres.symm.trans heq
  have hbad : ∀ bs, ¬ WellFormed x86 s' bs := by
    intro bs hw
    have hmagic := first_foot hw (of_decide_eq_true hlt)
    rw [hfoot] at hmagic
    exact absurd hmagic (by decide)
  rcases hcase with ⟨-, hw, -⟩ | ⟨bs, -, hw, -⟩
  · exact hbad _ hw
  · exact hbad bs hw

end KernelHeapReallocateLimits
