import Acess2.KernelHeapAreas

/-! # Heap_Merge

Merging joins a free block with the free blocks on either side. The two halves of
Heap_Merge are executed symbolically once, on two neighbouring blocks; the result for a
whole heap follows by cutting the tiling around them. -/
namespace KernelHeapMerge

open ByteMemory List Option Nat KernelHeapModel KernelHeapBlocks KernelHeapAreas

attribute [local congr] bind_congr_left

variable {L : Layout} {m : Memory} {mp : ℕ → Bool} {st en p a f tf n ps sz ns : ℕ}

/-- A free block below is extended over the block at `a`; the foot of `a` serves both. -/
theorem mergeLeft_free (hc : Covered mp p (a + sz))
    (hst : st ≤ p) (hen : a + sz < L.modulus) (ha : p + ps = a)
    (hf : f + L.footBytes = a) (htf : tf + L.footBytes = a + sz)
    (hp : BlockAt L m p ⟨ps, false⟩) (hb : BlockAt L m a ⟨sz, false⟩) :
    ∃ m', mergeLeft L ⟨m, mp, st, en⟩ a tf = some (⟨m', mp, st, en⟩, p) ∧
      (∀ x, x < p ∨ a + sz ≤ x → m' x = m x) ∧ BlockAt L m' p ⟨ps + sz, false⟩ := by
  have hL := layout_core L
  have hpm : L.minSize ≤ ps := hp.min_le
  have hbm : L.minSize ≤ sz := hb.min_le
  -- every word touched, in address order
  have hap : Apart [(p, 0), (p, L.wordBytes), (p + L.magicOfs, L.wordBytes),
      (f, L.wordBytes), (f + L.wordBytes, L.wordBytes), (a, L.wordBytes),
      (a + L.magicOfs, L.wordBytes), (tf, L.wordBytes), (tf + L.wordBytes, L.wordBytes),
      (a + sz, 0)] := by
    repeat' first | apply apart_single | apply apart_cons_cons
    all_goals (simp only; omega)
  have acc := access_covered hc st en
  have hfoot : heapPrevFoot L a = f := by
    rw [heapPrevFoot, sub_eq (by omega) (by omega)]
    omega
  have hlt : st < a := by omega
  have hsum : ps + sz < L.modulus := by omega
  have hpw : p < L.modulus := by omega
  have hpos : 0 < ps + sz := by omega
  have hpf := hp.foot_head
  have hbf := hb.foot_magic
  simp only [show p + ps - L.footBytes = f by omega,
    show a + sz - L.footBytes = tf by omega] at hpf hbf
  have htf' : p + (ps + sz) - L.footBytes = tf := by omega
  simp only [apart_cons, forall_mem_cons, add_zero] at hap
  refine ⟨?mem, ?eq, ?frame, ?block⟩
  case eq =>
    simp only [mergeLeft, hfoot, footHead, headMagic, headSize, setSize, setFootHead,
      setMagic, setFootMagic, bind_eq_bind, Option.pure_def, hlt, ↓reduceIte]
    simp only [acc, hap, bind_some, hpf, hp.magic_eq, magicOf_false, hp.size_eq,
      hb.size_eq, add_eq hsum, load_store_disjoint, ↓reduceIte, true_or, or_true]
    rfl
  case frame =>
    intro x hx
    simp only [store_frame hx, hap]
  case block =>
    refine ⟨hpos, Nat.dvd_add hp.aligned hb.aligned, ?_, ?_, ?_, ?_⟩ <;>
      simp only [htf', load_store_disjoint, load_store_word, hsum, hpw, hap, true_or, or_true,
        hp.magic_eq, hbf]

theorem mergeLeft_skip (h : st = a ∨ ∃ p ps, p + ps = a ∧ st ≤ p ∧ a < L.modulus ∧
      (Covered mp p a) ∧ BlockAt L m p ⟨ps, true⟩) :
    mergeLeft L ⟨m, mp, st, en⟩ a tf = some (⟨m, mp, st, en⟩, a) := by
  rcases h with rfl | ⟨p, ps, rfl, hst, hen, hc, hp⟩
  · simp only [mergeLeft, lt_irrefl, ↓reduceIte, Option.pure_def]
  have hL := layout_core L
  have hpm : L.minSize ≤ ps := hp.min_le
  have hfoot : heapPrevFoot L (p + ps) = p + ps - L.footBytes := by
    rw [heapPrevFoot, sub_eq (by omega) (by omega)]
  have acc := access_covered hc st en
  have h1 := acc.1 m (p + ps - L.footBytes + L.wordBytes) L.wordBytes (by omega) (by omega)
  have h2 := acc.1 m (p + L.magicOfs) L.wordBytes (by omega) (by omega)
  rw [hp.foot_head] at h1
  rw [hp.magic_eq] at h2
  have hlt : st < p + ps := by omega
  simp only [mergeLeft, hfoot, footHead, headMagic, bind_eq_bind, Option.pure_def,
    hlt, h1, h2, bind_some, magicOf_true, magicUsed_ne_free, ↓reduceIte]

/-- A free block above is swallowed: its foot now closes the block at `a`. -/
theorem mergeRight_free (st : ℕ) (hc : Covered mp a (n + ns))
    (hen : n + ns ≤ en) (hmod : en < L.modulus) (hn : a + sz = n)
    (htf : tf + L.footBytes = n) (hb : BlockAt L m a ⟨sz, false⟩)
    (hx : BlockAt L m n ⟨ns, false⟩) :
    ∃ m', mergeRight L ⟨m, mp, st, en⟩ a tf = some (⟨m', mp, st, en⟩, a) ∧
      (∀ x, x < a ∨ n + ns ≤ x → m' x = m x) ∧ BlockAt L m' a ⟨sz + ns, false⟩ := by
  have hL := layout_core L
  have hbm : L.minSize ≤ sz := hb.min_le
  have hnm : L.minSize ≤ ns := hx.min_le
  obtain ⟨g, hg⟩ : ∃ g, g + L.footBytes = n + ns := ⟨n + ns - L.footBytes, by omega⟩
  have hap : Apart [(a, 0), (a, L.wordBytes), (a + L.magicOfs, L.wordBytes),
      (tf, L.wordBytes), (tf + L.wordBytes, L.wordBytes), (n, L.wordBytes),
      (n + L.magicOfs, L.wordBytes), (g, L.wordBytes), (g + L.wordBytes, L.wordBytes),
      (n + ns, 0)] := by
    repeat' first | apply apart_single | apply apart_cons_cons
    all_goals (simp only; omega)
  have acc := access_covered hc st en
  have hlt : n < en := by omega
  have hsum : sz + ns < L.modulus := by omega
  have haw : a < L.modulus := by omega
  have hpos : 0 < sz + ns := by omega
  have hnext : L.add a sz = n := by rw [add_eq (by omega), hn]
  have hfoot : L.sub (L.add a (sz + ns)) L.footBytes = g := (foot_eq (by omega) (by omega)).1
  have hxf := hx.foot_magic
  simp only [show n + ns - L.footBytes = g by omega] at hxf
  have hg' : a + (sz + ns) - L.footBytes = g := by omega
  simp only [apart_cons, forall_mem_cons, add_zero] at hap
  refine ⟨?mem, ?eq, ?frame, ?block⟩
  case eq =>
    simp only [mergeRight, heapNextHead, heapThisFoot, headMagic, headSize, setSize,
      setFootHead, setMagic, setFootMagic, bind_eq_bind, Option.pure_def]
    simp only [acc, hap, bind_some, hb.size_eq, hnext, hlt, hx.magic_eq, magicOf_false,
      hx.size_eq, add_eq hsum, load_store_word, hsum, hfoot, ↓reduceIte]
    rfl
  case frame =>
    intro x hx
    simp only [store_frame hx, hap]
  case block =>
    refine ⟨hpos, Nat.dvd_add hb.aligned hx.aligned, ?_, ?_, ?_, ?_⟩ <;>
      simp only [hg', load_store_disjoint, load_store_word, hsum, haw, hap, true_or, or_true,
        hb.magic_eq, hxf]

theorem mergeRight_skip (st tf : ℕ) (hb : BlockAt L m a ⟨sz, false⟩) (hmod : en < L.modulus)
    (hc : Covered mp a en) (hle : a + sz ≤ en)
    (h : a + sz = en ∨ ∃ ns, a + sz + ns ≤ en ∧ BlockAt L m (a + sz) ⟨ns, true⟩) :
    mergeRight L ⟨m, mp, st, en⟩ a tf = some (⟨m, mp, st, en⟩, a) := by
  have hL := layout_core L
  have hbm : L.minSize ≤ sz := hb.min_le
  have acc := access_covered hc st en
  have hsize := acc.1 m a L.wordBytes le_rfl (by omega)
  rw [hb.size_eq] at hsize
  have hnext : L.add a sz = a + sz := add_eq (by omega)
  rcases h with h | ⟨ns, hns, hx⟩
  · have hlt : ¬ a + sz < en := by omega
    simp only [mergeRight, heapNextHead, headSize, hsize, hnext, hlt, bind_eq_bind,
      Option.pure_def, bind_some, ↓reduceIte]
  have hnm : L.minSize ≤ ns := hx.min_le
  have hlt : a + sz < en := by omega
  have hmagic := acc.1 m (a + sz + L.magicOfs) L.wordBytes (by omega) (by omega)
  rw [hx.magic_eq] at hmagic
  simp only [mergeRight, heapNextHead, headSize, headMagic, hsize, hnext, hlt, hmagic,
    bind_eq_bind, Option.pure_def, bind_some, magicOf_true,
    magicUsed_ne_free, ↓reduceIte]

/-- A free block of size `sz` after `pre` is joined with the last block of `pre` if that is free. -/
inductive JoinsLeft : List Block → ℕ → List Block → ℕ → Prop
  | free (pre : List Block) (ps sz : ℕ) : JoinsLeft (pre ++ [⟨ps, false⟩]) sz pre (ps + sz)
  | used (pre : List Block) (sz : ℕ) (h : ∀ b ∈ pre.getLast?, b.used = true) :
      JoinsLeft pre sz pre sz

inductive JoinsRight : ℕ → List Block → ℕ → List Block → Prop
  | free (sz ns : ℕ) (post : List Block) : JoinsRight sz (⟨ns, false⟩ :: post) (sz + ns) post
  | used (sz : ℕ) (post : List Block) (h : ∀ b ∈ post.head?, b.used = true) :
      JoinsRight sz post sz post

variable {post pre : List Block} {s : Heap}

section

variable (h : WellFormed L s (pre ++ ⟨sz, false⟩ :: post))
include h

theorem mergeLeft_spec (htf : tf + L.footBytes = s.heapStart + span pre + sz) :
    ∃ m' pre' sz', JoinsLeft pre sz pre' sz' ∧ mergeLeft L s (s.heapStart + span pre) tf =
        some ({ s with mem := m' }, s.heapStart + span pre') ∧
      WellFormed L { s with mem := m' } (pre' ++ ⟨sz', false⟩ :: post) ∧
      span pre' + sz' = span pre + sz ∧
      ∀ x, x < s.heapStart + span pre' ∨ s.heapStart + span pre + sz ≤ x → m' x = s.mem x := by
  obtain ⟨hb, hend, hmod, -⟩ := h.block
  have hL := layout_core L
  rcases eq_nil_or_concat pre with rfl | ⟨pre, ⟨ps, used⟩, rfl⟩
  · refine ⟨s.mem, [], sz, .used [] sz (by simp), mergeLeft_skip (.inl (by simp)), h, rfl, ?_⟩
    exact fun x _ => rfl
  rw [concat_eq_append] at *
  rw [append_assoc] at h
  obtain ⟨hp, -, -⟩ := h.block
  simp only [span_append, span_cons, span_nil, add_zero, ← add_assoc] at *
  cases used with
  | true =>
    refine ⟨s.mem, pre ++ [⟨ps, true⟩], sz, .used _ sz (by simp), ?_, ?_, ?_, fun _ _ => rfl⟩
    · simp only [span_append, span_cons, span_nil, add_zero, ← add_assoc]
      refine mergeLeft_skip (.inr ⟨s.heapStart + span pre, ps, rfl, by omega, by omega, ?_, hp⟩)
      exact fun x hl hu => h.mapped x (by omega) (by omega)
    · simpa using h
    · simp
  | false =>
    have hpm : L.minSize ≤ ps := hp.min_le
    obtain ⟨f, hf⟩ : ∃ f, f + L.footBytes = s.heapStart + span pre + ps :=
      ⟨s.heapStart + span pre + ps - L.footBytes, by omega⟩
    have hc : ∀ x, s.heapStart + span pre ≤ x → x < s.heapStart + span pre + ps + sz →
        s.mapped (x / 4096) = true := fun x hl hu => h.mapped x (by omega) (by omega)
    obtain ⟨m', heq, hframe, hb'⟩ :=
      mergeLeft_free hc (le_add_right _ _) (by omega) rfl hf htf hp hb
    refine ⟨m', pre, ps + sz, .free pre ps sz, heq, ?_, by omega, hframe⟩
    exact h.replace [⟨ps, false⟩, ⟨sz, false⟩] hb' (by simp) (by simpa [← add_assoc] using hframe)
      (by simp)

theorem mergeRight_spec (htf : tf + L.footBytes = s.heapStart + span pre + sz) :
    ∃ m' sz' post', JoinsRight sz post sz' post' ∧ mergeRight L s (s.heapStart + span pre) tf =
        some ({ s with mem := m' }, s.heapStart + span pre) ∧
      WellFormed L { s with mem := m' } (pre ++ ⟨sz', false⟩ :: post') ∧
      ∀ x, x < s.heapStart + span pre ∨ s.heapStart + span pre + sz' ≤ x → m' x = s.mem x := by
  obtain ⟨hb, hend, hmod, -⟩ := h.block
  simp only at hend
  have hc : ∀ x, s.heapStart + span pre ≤ x → x < s.heapEnd →
      s.mapped (x / 4096) = true := fun x hl hu => h.mapped x (by omega) hu
  have skip := mergeRight_skip s.heapStart tf hb (by omega) hc (by omega)
  rcases post with _ | ⟨⟨ns, used⟩, post⟩
  · exact ⟨s.mem, sz, [], .used sz [] (by simp), skip (.inl (by simpa using hend.symm)), h,
      fun _ _ => rfl⟩
  have hx : BlockAt L s.mem (s.heapStart + span pre + sz) ⟨ns, used⟩ :=
    (tiles_append.mp h.tiles).2.2.1
  simp only [span_cons] at hend
  cases used with
  | true =>
    exact ⟨s.mem, sz, _, .used sz _ (by simp), skip (.inr ⟨ns, by omega, hx⟩), h, fun _ _ => rfl⟩
  | false =>
    obtain ⟨m', heq, hframe, hb'⟩ := mergeRight_free s.heapStart
      (fun x hl hu => hc x hl (by omega)) (show _ ≤ s.heapEnd by omega) (by omega) rfl htf hb hx
    rw [add_assoc] at hframe
    exact ⟨m', sz + ns, post, .free sz ns post, heq,
      h.replace [⟨sz, false⟩, ⟨ns, false⟩] hb' (by simp) hframe (by simp), hframe⟩

theorem heapMerge_spec :
    ∃ m' pre' k sz' post', JoinsLeft pre sz pre' k ∧ JoinsRight k post sz' post' ∧
      heapMerge L s (s.heapStart + span pre) =
        some ({ s with mem := m' }, s.heapStart + span pre') ∧
      WellFormed L { s with mem := m' } (pre' ++ ⟨sz', false⟩ :: post') ∧
      ∀ x, x < s.heapStart + span pre' ∨ s.heapStart + span pre' + sz' ≤ x → m' x = s.mem x := by
  obtain ⟨hb, hend, hmod, -⟩ := h.block
  have hL := layout_core L
  have hbm : L.minSize ≤ sz := hb.min_le
  simp only at hend
  obtain ⟨tf, htf⟩ : ∃ tf, tf + L.footBytes = s.heapStart + span pre + sz :=
    ⟨s.heapStart + span pre + sz - L.footBytes, by omega⟩
  have hfoot : heapThisFoot L s (s.heapStart + span pre) = some tf := by
    rw [h.heapThisFoot_eq, some_inj]
    simp only
    omega
  have hlt : ¬ s.heapEnd < s.heapStart + span pre + sz := by omega
  obtain ⟨m₁, pre', k, hj, heq, hw, hk, hframe⟩ := mergeLeft_spec h htf
  obtain ⟨m₂, sz', post', hj', heq', hw', hframe'⟩ :=
    mergeRight_spec hw (show tf + L.footBytes = s.heapStart + span pre' + k by omega)
  have hkle : k ≤ sz' := by cases hj' <;> omega
  refine ⟨m₂, pre', k, sz', post', hj, hj', ?_, hw', ?_⟩
  · simp only [heapMerge, h.heapNextHead_eq, hfoot, hlt, heq, heq',
      bind_eq_bind, bind_some, ↓reduceIte]
  · intro x hx
    exact (hframe' x hx).trans (hframe x (by omega))

end

variable {pre' post' : List Block} {k : ℕ}

theorem JoinsLeft.coalesced (h : JoinsLeft pre sz pre' k) (hc : Coalesced pre) :
    Coalesced pre' ∧ ∀ b ∈ pre'.getLast?, b.used = true := by
  cases h with
  | used _ _ hu => exact ⟨hc, hu⟩
  | free _ ps =>
    obtain ⟨hpre, -, hlast⟩ := isChain_append.mp hc
    exact ⟨hpre, fun b hb => (hlast b hb ⟨ps, false⟩ rfl).resolve_right (by simp)⟩

theorem JoinsRight.coalesced (h : JoinsRight sz post k post') (hc : Coalesced post) :
    Coalesced post' ∧ ∀ b ∈ post'.head?, b.used = true := by
  cases h with
  | used _ hu => exact ⟨hc, hu⟩
  | free _ ns =>
    obtain ⟨hhead, hpost⟩ := isChain_cons.mp hc
    exact ⟨hpost, fun b hb => (hhead b hb).resolve_left (by simp)⟩

variable {k' : ℕ}

variable (hl : JoinsLeft pre sz pre' k) (hr : JoinsRight k post k' post')
include hl hr

theorem joins_coalesced (hpre : Coalesced pre) (hpost : Coalesced post) :
    Coalesced (pre' ++ ⟨k', false⟩ :: post') := by
  obtain ⟨hpre', hlast⟩ := hl.coalesced hpre
  obtain ⟨hpost', hhead⟩ := hr.coalesced hpost
  refine isChain_append.mpr ⟨hpre', ?_, ?_⟩
  · exact isChain_cons.mpr ⟨fun b hb => .inr (hhead b hb), hpost'⟩
  · exact fun b hb _ _ => .inl (hlast b hb)

theorem joins_areas (a : ℕ) :
    dataAreas L a (pre' ++ ⟨k', false⟩ :: post') = dataAreas L a (pre ++ ⟨sz, false⟩ :: post) := by
  cases hl <;> cases hr <;> simp [dataAreas_append, dataAreas, add_assoc]

end KernelHeapMerge
