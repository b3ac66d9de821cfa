import Acess2.KernelHeapGrow

/-! # Heap_Reallocate

The five ways out of Heap_Reallocate: keep the block, grow into the next block exactly or
with a remainder, grow into the previous block, and move. -/
namespace KernelHeapReallocate

open ByteMemory Option Nat KernelHeapModel KernelHeapBlocks KernelHeapAreas KernelHeapMerge
open KernelHeapAllocate KernelHeapGrow

attribute [local congr] bind_congr_left

variable {L : Layout}

section

variable (L) (s : Heap) (pre : List Block) (sz : ℕ)

def others (post : List Block) : List (ℕ × ℕ) :=
  dataAreas L s.heapStart pre ++ dataAreas L (s.heapStart + span pre + sz) post

/-- What a reallocation to `n` bytes owes its caller: NULL and an untouched heap, or a block of `n`
bytes that starts with the old data, and every other allocation left alone -/
def Preserves (post : List Block) (n : ℕ)
    (r : Option (Heap × ℕ)) : Prop :=
  ∃ s' q, r = some (s', q) ∧ s'.heapStart = s.heapStart ∧
    ((q = 0 ∧ WellFormed L s' (pre ++ ⟨sz, true⟩ :: post) ∧ s'.mem = s.mem ∧
        s'.heapEnd = s.heapEnd) ∨
      ∃ bs len, WellFormed L s' bs ∧ n ≤ len ∧
        (dataAreas L s.heapStart bs).Perm ((q, len) :: others L s pre sz post) ∧
        SameOn (others L s pre sz post) s.mem s'.mem ∧
        ∀ i, i < min (sz - L.headBytes - L.footBytes) n →
          s'.mem (q + i) = s.mem (s.heapStart + span pre + L.headBytes + i))

end

variable {s : Heap} {pre post : List Block} {sz n : ℕ}

theorem areas_perm_others : (dataAreas L s.heapStart (pre ++ ⟨sz, true⟩ :: post)).Perm
      ((s.heapStart + span pre + L.headBytes, sz - L.headBytes - L.footBytes) ::
        others L s pre sz post) := by
  rw [dataAreas_append, dataAreas, if_pos rfl]
  exact List.perm_middle

variable {bs rest back front : List Block} {k len p N : ℕ} {used : Bool}

theorem areas_of_free {a : ℕ} (h : ∀ b ∈ bs, b.used = false) : dataAreas L a bs = [] := by
  induction bs generalizing a with
  | nil => rfl
  | cons b bs ih =>
    rw [dataAreas, if_neg (by simp [h b List.mem_cons_self])]
    exact ih fun c hc => h c (List.mem_cons_of_mem _ hc)

theorem keep_preserves (h : WellFormed L s (pre ++ ⟨sz, true⟩ :: post))
    (hle : n + L.headBytes + L.footBytes ≤ sz) :
    Preserves L s pre sz post n (some (s, s.heapStart + span pre + L.headBytes)) :=
  ⟨s, _, rfl, rfl, .inr ⟨_, _, h, by omega, areas_perm_others, fun _ _ _ _ _ => rfl,
    fun _ _ => rfl⟩⟩

theorem growUp_preserves (c : Caller) {ns : ℕ}
    (h : WellFormed L s (pre ++ ⟨sz, true⟩ :: ⟨ns, false⟩ :: rest)) (hlt : sz < k)
    (hle : k ≤ sz + ns) (hal : L.minSize ∣ k) (hn : n + L.headBytes + L.footBytes ≤ k) :
    Preserves L s pre sz (⟨ns, false⟩ :: rest) n
      ((growUp L s c (s.heapStart + span pre) (s.heapStart + span pre + sz) k n).bind
        fun s' => some (s', s.heapStart + span pre + L.headBytes)) := by
  obtain ⟨hu, hend, hmod, -⟩ := h.block
  have hf : BlockAt L s.mem (s.heapStart + span pre + sz) ⟨ns, false⟩ :=
    (tiles_append.mp h.tiles).2.2.1
  have hroom := h.used_room
  simp only [span_cons] at hend
  obtain ⟨m', tail, heq, hframe, htiles, hfree⟩ := growUp_spec s.heapStart s.heapEnd c n
    (fun x hl hx => h.mapped x (by omega) (by omega)) (by omega) hroom rfl hlt hle hal hu hf
  have h' : WellFormed L s (pre ++ ([⟨sz, true⟩, ⟨ns, false⟩] ++ rest)) := h
  have hspan : s.heapStart + span pre + span [⟨sz, true⟩, ⟨ns, false⟩] =
      s.heapStart + span pre + sz + ns := by simp [add_assoc]
  have hout : ∀ x, x < s.heapStart + span pre ∨ s.heapStart + span pre + sz + ns ≤ x →
      m' x = s.mem x := fun x hx => hframe x (by omega)
  have hw := h'.splice (hspan ▸ hout) (hspan ▸ htiles) fun b hb hub => by
    rcases List.mem_cons.mp hb with rfl | hb
    · simp only
      omega
    · exact absurd hub (by simp [hfree b hb])
  have hsame := sameOn_outside h' (hspan ▸ hout)
  rw [hspan] at hsame
  have htail := tiles_end htiles
  rw [span_cons] at htail
  refine ⟨{ s with mem := m' }, s.heapStart + span pre + L.headBytes,
    by rw [heq, bind_some], rfl, .inr ⟨_, k - L.headBytes - L.footBytes, hw,
    by omega, ?_, ?_, fun i hi => hframe _ (by omega)⟩⟩
  · rw [dataAreas_append, List.cons_append, dataAreas, if_pos rfl, dataAreas_append,
      areas_of_free hfree]
    refine List.perm_middle.trans (List.Perm.of_eq ?_)
    simp only [others, dataAreas, List.nil_append, Bool.false_eq_true, if_false, add_assoc]
    rw [show k + span tail = sz + ns by simp only at htail; omega]
  · simpa [others, dataAreas] using hsame

theorem growDown_preserves (c : Caller) {ps : ℕ}
    (h : WellFormed L s (pre ++ ⟨ps, false⟩ :: ⟨sz, true⟩ :: post))
    (hal : L.minSize ∣ ps + sz) (hn : n + L.headBytes + L.footBytes ≤ ps + sz) :
    Preserves L s (pre ++ [⟨ps, false⟩]) sz post n
      ((growDown L s c (s.heapStart + span pre + ps) (s.heapStart + span pre)
        (s.heapStart + span pre + ps + L.headBytes) (ps + sz) n).bind
        fun s' => some (s', s.heapStart + span pre + L.headBytes)) := by
  obtain ⟨hp, hend, hmod, -⟩ := h.block
  have hu : BlockAt L s.mem (s.heapStart + span pre + ps) ⟨sz, true⟩ :=
    (tiles_append.mp h.tiles).2.2.1
  have hroom : L.headBytes + L.footBytes ≤ sz := h.room ⟨sz, true⟩ (by simp) rfl
  have hpos : 0 < ps := hp.pos
  simp only [span_cons] at hend
  obtain ⟨m', heq, hframe, -, -, -, hexact⟩ := growDown_spec s.heapStart s.heapEnd c n
    (fun x hl hx => h.mapped x (by omega) (by omega)) (by omega) hroom rfl
    (show sz < ps + sz by omega) le_rfl hal hp hu
  obtain ⟨hb, hdata⟩ := hexact rfl
  have h' : WellFormed L s (pre ++ ([⟨ps, false⟩, ⟨sz, true⟩] ++ post)) := h
  have hspan : s.heapStart + span pre + span [⟨ps, false⟩, ⟨sz, true⟩] =
      s.heapStart + span pre + ps + sz := by simp [add_assoc]
  have hw := h.replace [⟨ps, false⟩, ⟨sz, true⟩] hb (by simp) (by simpa [← add_assoc] using hframe)
    fun _ => by
      simp only
      omega
  have hsame := sameOn_outside h' (hspan ▸ hframe)
  refine ⟨{ s with mem := m' }, s.heapStart + span pre + L.headBytes,
    by rw [heq, bind_some], rfl, .inr ⟨_, ps + sz - L.headBytes - L.footBytes, hw,
    by omega, ?_, ?_, ?_⟩⟩
  · rw [dataAreas_append, dataAreas, if_pos rfl]
    refine List.perm_middle.trans (List.Perm.of_eq ?_)
    simp [others, dataAreas_append, dataAreas, add_assoc]
  · simpa [others, dataAreas_append, dataAreas, ← add_assoc] using hsame
  · intro i hi
    have hi' : i < sz - L.headBytes - L.footBytes := by omega
    simpa [← add_assoc] using hdata i hi'

theorem allocates_split {ofs : ℕ} {bs' : List Block} (h : Allocates k bs ofs bs') :
    ∃ front back, bs' = front ++ ⟨k, true⟩ :: back ∧ ofs = span front := by
  have takes : ∀ bs, Takes k bs ofs bs' →
      ∃ front back, bs' = front ++ ⟨k, true⟩ :: back ∧ ofs = span front := by
    intro bs ht
    cases ht with
    | perfect front back => exact ⟨front, back, rfl, rfl⟩
    | split front j back => exact ⟨front, _, rfl, rfl⟩
  cases h with
  | found ht => exact takes _ ht
  | grown _ _ _ _ ht => exact takes _ ht

theorem wellFormed_area {q : ℕ} (h : WellFormed L s bs)
    (hr : (q, len) ∈ dataAreas L s.heapStart bs) :
    ∃ front back, bs = front ++ ⟨len + L.headBytes + L.footBytes, true⟩ :: back ∧
      q = s.heapStart + span front + L.headBytes := by
  obtain ⟨front, k, back, rfl, hq, hlen⟩ := mem_areas hr
  have hroom := h.used_room
  obtain rfl : k = len + L.headBytes + L.footBytes := by omega
  exact ⟨front, back, rfl, hq⟩

theorem rewrite_block {m' : Memory} (h : WellFormed L s (front ++ ⟨k, true⟩ :: back))
    (hframe : ∀ x, x < s.heapStart + span front ∨ s.heapStart + span front + k ≤ x →
      m' x = s.mem x) (hb : BlockAt L m' (s.heapStart + span front) ⟨k, true⟩) :
    WellFormed L { s with mem := m' } (front ++ ⟨k, true⟩ :: back) ∧
      SameOn (others L s front k back) s.mem m' := by
  have h' : WellFormed L s (front ++ ([⟨k, true⟩] ++ back)) := h
  have hroom := h.used_room
  have hframe' : ∀ x, x < s.heapStart + span front ∨
      s.heapStart + span front + span [⟨k, true⟩] ≤ x → m' x = s.mem x := by simpa using hframe
  exact ⟨h.replace [⟨k, true⟩] hb (by simp) hframe fun _ => hroom,
    by simpa [others] using sameOn_outside h' hframe'⟩

theorem copyInto_spec (h : WellFormed L s (front ++ ⟨k, true⟩ :: back))
    (hp : (p, len) ∈ others L s front k back) (hlen : len + L.headBytes + L.footBytes ≤ k) :
    ∃ m', s.memcpy (s.heapStart + span front + L.headBytes) p len = some { s with mem := m' } ∧
      WellFormed L { s with mem := m' } (front ++ ⟨k, true⟩ :: back) ∧
      SameOn (others L s front k back) s.mem m' ∧
      ∀ i, i < len → m' (s.heapStart + span front + L.headBytes + i) = s.mem (p + i) := by
  obtain ⟨hb, hend, -, -⟩ := h.block
  simp only at hend
  have hL := layout_facts L
  -- the source lies below or above the whole block
  have hside : s.heapStart ≤ p ∧ p + len ≤ s.heapStart + span front ∨
      s.heapStart + span front + k ≤ p ∧ p + len ≤ s.heapEnd := by
    rcases List.mem_append.mp hp with hp | hp
    · exact .inl (areas_below (fun b hb => h.room b (List.mem_append_left _ hb)) _ hp)
    · have := areas_below (fun b hb => h.room b
        (List.mem_append_right _ (List.mem_cons_of_mem _ hb))) _ hp
      omega
  have hacc : ∀ b, s.heapStart ≤ b → b + len ≤ s.heapEnd → s.Accessible b len :=
    fun b hl hu => h.accessible hl hu
  obtain ⟨m', hm'⟩ : ∃ m', m' = copyForward s.mem (s.heapStart + span front + L.headBytes) p len :=
    ⟨_, rfl⟩
  have hkeep : ∀ x, x < s.heapStart + span front + L.headBytes ∨
      s.heapStart + span front + k ≤ x + L.footBytes → m' x = s.mem x := by
    intro x hx
    rw [hm']
    exact copyForward_outside (by omega)
  have hload : ∀ b, b + L.wordBytes ≤ s.heapStart + span front + L.headBytes ∨
      s.heapStart + span front + k ≤ b + L.footBytes →
      load m' b L.wordBytes = load s.mem b L.wordBytes :=
    fun b hb => load_congr fun x _ _ => hkeep x (by omega)
  have hb' : BlockAt L m' (s.heapStart + span front) ⟨k, true⟩ :=
    ⟨hb.pos, hb.aligned, (hload _ (by omega)).trans hb.size_eq,
      (hload _ (by omega)).trans hb.magic_eq,
      (hload _ (by simp only; omega)).trans hb.foot_magic,
      (hload _ (by simp only; omega)).trans hb.foot_head⟩
  obtain ⟨hw, hsame⟩ := rewrite_block h (fun x hx => hkeep x (by omega)) hb'
  refine ⟨m', ?_, hw, hsame, fun i hi => ?_⟩
  · rw [Heap.memcpy, if_pos ⟨hacc _ (by omega) (by omega), hacc _ (by omega) (by omega)⟩, hm']
  · rw [hm']
    exact copyForward_inside (by omega) hi

theorem release_spec (own : Caller) {rest : List (ℕ × ℕ)}
    (h : WellFormed L s bs) (hareas : (dataAreas L s.heapStart bs).Perm ((p, len) :: rest)) :
    ∃ m' bs', heapDeallocate L s own p = some { s with mem := m' } ∧
      WellFormed L { s with mem := m' } bs' ∧ (dataAreas L s.heapStart bs').Perm rest ∧
      SameOn rest s.mem m' := by
  obtain ⟨front, back, rfl, rfl⟩ := wellFormed_area h (hareas.mem_iff.mpr List.mem_cons_self)
  obtain ⟨m', pre', k, sz', post', hj, hj', heq, hw, hframe⟩ := heapDeallocate_spec own h
  have hperm : (dataAreas L s.heapStart (pre' ++ ⟨sz', false⟩ :: post')).Perm rest := by
    rw [joins_areas hj hj']
    have hlen : len + L.headBytes + L.footBytes - L.headBytes - L.footBytes = len := by omega
    have hold : (dataAreas L s.heapStart
        (front ++ ⟨len + L.headBytes + L.footBytes, true⟩ :: back)).Perm _ :=
      areas_used s.heapStart
    rw [hlen] at hold
    exact (hold.symm.trans hareas).cons_inv
  refine ⟨m', _, heq, hw, hperm, SameOn.perm ?_ hperm⟩
  have hback : SameOn (dataAreas L s.heapStart (pre' ++ ⟨sz', false⟩ :: post')) m' s.mem :=
    sameOn_of_frame hw fun x hx => (hframe x hx).symm
  exact fun r hr x hl hu => (hback r hr x hl hu).symm

theorem finish_move (own : Caller)
    {rest : List (ℕ × ℕ)} (h : WellFormed L s (front ++ ⟨k, true⟩ :: back))
    (hareas : (others L s front k back).Perm ((p, len) :: rest))
    (hlen : len + L.headBytes + L.footBytes ≤ k) :
    ∃ m₁ m₂ bs, s.memcpy (s.heapStart + span front + L.headBytes) p len =
        some { s with mem := m₁ } ∧
      heapDeallocate L { s with mem := m₁ } own p = some { s with mem := m₂ } ∧
      WellFormed L { s with mem := m₂ } bs ∧
      (dataAreas L s.heapStart bs).Perm
        ((s.heapStart + span front + L.headBytes, k - L.headBytes - L.footBytes) :: rest) ∧
      SameOn rest s.mem m₂ ∧
      ∀ i, i < len → m₂ (s.heapStart + span front + L.headBytes + i) = s.mem (p + i) := by
  obtain ⟨m₁, hcopy, hw₁, hsame₁, hdata⟩ :=
    copyInto_spec h (hareas.mem_iff.mpr List.mem_cons_self) hlen
  have hall : (dataAreas L s.heapStart (front ++ ⟨k, true⟩ :: back)).Perm ((p, len) ::
      (s.heapStart + span front + L.headBytes, k - L.headBytes - L.footBytes) :: rest) :=
    areas_perm_others.trans ((hareas.cons _).trans (List.Perm.swap ..))
  obtain ⟨m₂, bs, hfree, hw₂, hperm, hsame₂⟩ := release_spec own hw₁ hall
  refine ⟨m₁, m₂, bs, hcopy, hfree, hw₂, hperm, ?_, fun i hi => ?_⟩
  · have hrest : SameOn rest s.mem m₁ := fun r hr =>
      hsame₁ r (hareas.mem_iff.mpr (List.mem_cons_of_mem _ hr))
    exact hrest.trans fun r hr => hsame₂ r (List.mem_cons_of_mem _ hr)
  · rw [← hdata i hi]
    exact hsame₂ _ List.mem_cons_self _ (le_add_right _ _) (by simp only; omega)

theorem move_preserves (c own : Caller) (ok : ℕ → Bool)
    (h : WellFormed L s (pre ++ ⟨sz, true⟩ :: post)) (hn : NoWrap L n)
    (hr : ExtendInRange L s.heapEnd (heapIntGetBlockSize L n))
    (hlt : sz < heapIntGetBlockSize L n) :
    Preserves L s pre sz post n (reallocMove L s c own (s.heapStart + span pre)
      (s.heapStart + span pre + L.headBytes) n ok) := by
  obtain ⟨⟨m₁, mp, st, en⟩, q, halloc, hstart, hres⟩ := heapAllocate_spec c ok h hn hr
  obtain rfl : st = s.heapStart := hstart
  rcases hres with ⟨rfl, hw, hmem, hend⟩ | ⟨ofs, bs, ha, rfl, hw₁, hsame₁⟩
  · refine ⟨⟨m₁, mp, s.heapStart, en⟩, 0, ?_, rfl, .inl ⟨rfl, hw, hmem, hend⟩⟩
    simp only [reallocMove, halloc, bind_eq_bind, bind_some, pure_def, ↓reduceIte]
  have hfit := (heapIntGetBlockSize_spec hn).2.1
  have hroom := h.used_room
  generalize heapIntGetBlockSize L n = k at *
  obtain ⟨front, back, rfl, rfl⟩ := allocates_split ha
  have hothers : (others L s front k back).Perm
      ((s.heapStart + span pre + L.headBytes, sz - L.headBytes - L.footBytes) ::
        others L s pre sz post) :=
    (areas_perm_others.symm.trans (allocates_areas ha s.heapStart)).cons_inv.trans areas_perm_others
  obtain ⟨hb, hend, hmod, hpos⟩ := hw₁.block
  simp only at hend hmod hpos hb hsame₁
  obtain ⟨m₂, hrelabel, hframe, hb₂⟩ := relabel_spec s.heapStart en c n
    (fun x hl hx => hw₁.mapped x (by simp only; omega) (by simp only; omega)) (by omega) hb
  obtain ⟨hw₂, hsame₂⟩ := rewrite_block hw₁ (fun x hx => hframe x (by simp only at hx; omega)) hb₂
  obtain ⟨m₃, m₄, bs, hcopy, hfree, hw₄, hperm, hsame₄, hdata⟩ :=
    finish_move own hw₂ hothers (by omega)
  -- where Heap_Reallocate finds the two heads again
  have hsize : headSize L ⟨m₂, mp, s.heapStart, en⟩ (s.heapStart + span pre) = some sz := by
    have hold := (areas_perm_others.trans (hothers.cons _)).mem_iff.mpr
      (List.mem_cons_of_mem _ List.mem_cons_self)
    obtain ⟨front', back', hbs, hptr⟩ := wellFormed_area hw₂ hold
    have hread := (hbs ▸ hw₂).headSize_eq
    simp only at hread hptr
    rw [show s.heapStart + span pre = s.heapStart + span front' by omega, hread]
    congr 1
    omega
  have hhead : L.sub (s.heapStart + span front + L.headBytes) L.headBytes =
      s.heapStart + span front := by
    rw [sub_eq (by omega) (by omega), Nat.add_sub_cancel]
  have hlen : L.sub (L.sub sz L.footBytes) L.headBytes = sz - L.headBytes - L.footBytes := by
    rw [sub_eq (show L.footBytes ≤ sz by omega) (by omega), sub_eq (by omega) (by omega)]
    omega
  have hnull : ¬ s.heapStart + span front + L.headBytes = 0 := by omega
  have hnewSize := hw₂.headSize_eq
  refine ⟨⟨m₄, mp, s.heapStart, en⟩, s.heapStart + span front + L.headBytes, ?_, rfl,
    .inr ⟨bs, k - L.headBytes - L.footBytes, hw₄, by omega, hperm, ?_, fun i hi => ?_⟩⟩
  · simp only [reallocMove, halloc, hnull, hhead, hrelabel, hsize, hnewSize, hlt, and_self,
      hlen, hcopy, hfree, heapValidate_eq hw₄, bind_eq_bind, bind_some,
      pure_def, ↓reduceIte]
  · have hold : SameOn (others L s pre sz post) s.mem m₁ := fun r hr =>
      hsame₁ r (areas_perm_others.mem_iff.mpr (List.mem_cons_of_mem _ hr))
    refine (hold.trans fun r hr => hsame₂ r ?_).trans hsame₄
    exact hothers.mem_iff.mpr (List.mem_cons_of_mem _ hr)
  · have hi' : i < sz - L.headBytes - L.footBytes := by omega
    have hp : (s.heapStart + span pre + L.headBytes, sz - L.headBytes - L.footBytes) ∈
        others L s front k back := hothers.mem_iff.mpr List.mem_cons_self
    refine (hdata i hi').trans ((hsame₂ _ hp _ (le_add_right _ _) ?_).trans ?_)
    · omega
    · exact hsame₁ _ (areas_perm_others.mem_iff.mpr List.mem_cons_self) _
        (le_add_right _ _) (by simp only; omega)

theorem live_pointer (h : WellFormed L s (pre ++ ⟨sz, true⟩ :: post)) :
    ¬ s.heapStart + span pre + L.headBytes = 0 ∧
      heapIsHeapAddr L s (s.heapStart + span pre + L.headBytes) = some true ∧
      L.sub (s.heapStart + span pre + L.headBytes) L.headBytes = s.heapStart + span pre := by
  obtain ⟨-, hal, hle, hsub⟩ := dataPtr_checks h
  obtain ⟨-, -, -, hpos⟩ := h.block
  have hlow : ¬ s.heapStart + span pre + L.headBytes < s.heapStart := by omega
  have hhigh : ¬ s.heapEnd < s.heapStart + span pre + L.headBytes := by omega
  refine ⟨by omega, ?_, hsub⟩
  simp only [heapIsHeapAddr, hlow, hhigh, hal, hsub, h.headMagic_eq, magicOf_true, ne_eq,
    not_true_eq_false, true_or, decide_true, bind_eq_bind, bind_some,
    pure_def, ↓reduceIte]

section

variable (c own : Caller) (ok : ℕ → Bool) (h : WellFormed L s (pre ++ ⟨sz, true⟩ :: post))
include h

theorem heapReallocate_eq (hlt : sz < heapIntGetBlockSize L n) :
    heapReallocate L s c own (s.heapStart + span pre + L.headBytes) n ok =
      (roomWith L s (s.heapStart + span pre) (s.heapStart + span pre + sz)
        (heapIntGetBlockSize L n)).bind fun up =>
      if up then (growUp L s c (s.heapStart + span pre) (s.heapStart + span pre + sz)
          (heapIntGetBlockSize L n) n).bind
          fun s' => some (s', s.heapStart + span pre + L.headBytes)
      else (footHead L s (heapPrevFoot L (s.heapStart + span pre))).bind fun prev =>
        (roomWith L s (s.heapStart + span pre) prev (heapIntGetBlockSize L n)).bind fun down =>
        if down then
          (growDown L s c (s.heapStart + span pre) prev (s.heapStart + span pre + L.headBytes)
            (heapIntGetBlockSize L n) n).bind fun s' => some (s', prev + L.headBytes)
        else reallocMove L s c own (s.heapStart + span pre)
          (s.heapStart + span pre + L.headBytes) n ok := by
  obtain ⟨hnull, haddr, hsub⟩ := live_pointer h
  have hkeep : ¬ heapIntGetBlockSize L n ≤ sz := not_le.mpr hlt
  simp only [heapReallocate, hnull, haddr, hsub, h.headSize_eq, hkeep, heapValidate_eq h,
    h.heapNextHead_eq, Bool.true_eq_false, bind_eq_bind, bind_some,
    pure_def, ↓reduceIte]

theorem heapReallocate_keep (hle : heapIntGetBlockSize L n ≤ sz) :
    heapReallocate L s c own (s.heapStart + span pre + L.headBytes) n ok =
      some (s, s.heapStart + span pre + L.headBytes) := by
  obtain ⟨hnull, haddr, hsub⟩ := live_pointer h
  simp only [heapReallocate, hnull, haddr, hsub, h.headSize_eq, hle,
    Bool.true_eq_false, bind_eq_bind, bind_some, pure_def, ↓reduceIte]

end

theorem roomWith_eq {head other : ℕ}
    (hm : headMagic L s other = some (magicOf used)) (hk : headSize L s other = some k)
    (hsz : headSize L s head = some sz) (hsum : k + sz < L.modulus) :
    roomWith L s head other N = some (decide (used = false ∧ N ≤ k + sz)) := by
  cases used <;> simp [roomWith, hm, hk, hsz, add_eq hsum, magicUsed_ne_free]

theorem roomWith_next (h : WellFormed L s (pre ++ ⟨sz, true⟩ :: ⟨k, used⟩ :: rest)) :
    roomWith L s (s.heapStart + span pre) (s.heapStart + span pre + sz) N =
      some (decide (used = false ∧ N ≤ k + sz)) := by
  obtain ⟨-, hend, hmod, -⟩ := h.block
  simp only [span_cons] at hend
  have h' : WellFormed L s ((pre ++ [⟨sz, true⟩]) ++ ⟨k, used⟩ :: rest) := by simpa using h
  have hm := h'.headMagic_eq
  have hk := h'.headSize_eq
  simp only [span_append, span_cons, span_nil, add_zero, ← add_assoc] at hm hk
  exact roomWith_eq hm hk h.headSize_eq (by omega)

theorem roomWith_prev (h : WellFormed L s ((front ++ [⟨k, used⟩]) ++ ⟨sz, true⟩ :: post)) :
    footHead L s (heapPrevFoot L (s.heapStart + span (front ++ [⟨k, used⟩]))) =
        some (s.heapStart + span front) ∧
      roomWith L s (s.heapStart + span (front ++ [⟨k, used⟩])) (s.heapStart + span front) N =
        some (decide (used = false ∧ N ≤ k + sz)) := by
  have h' : WellFormed L s (front ++ ⟨k, used⟩ :: ⟨sz, true⟩ :: post) := by simpa using h
  obtain ⟨hb, hend, hmod, -⟩ := h'.block
  have hmin : L.minSize ≤ k := hb.min_le
  have hL := layout_core L
  simp only [span_cons] at hend
  refine ⟨?_, roomWith_eq h'.headMagic_eq h'.headSize_eq h.headSize_eq (by omega)⟩
  have hfoot := h'.footHead_eq
  simp only [span_append, span_cons, span_nil, add_zero, ← add_assoc, heapPrevFoot]
  rw [sub_eq (by omega) (by omega), hfoot]

/-- When a reallocation of the block of size `sz` between `pre` and `post` to a block of
size `N` is carried out correctly. -/
inductive Safe (L : Layout) (pre : List Block) (sz : ℕ) (post : List Block) (N : ℕ) : Prop
  | keep (h : N ≤ sz)
  | up (ns : ℕ) (rest : List Block) (hpost : post = ⟨ns, false⟩ :: rest) (h : N ≤ sz + ns)
  | down (front : List Block) (ps : ℕ) (hpre : pre = front ++ [⟨ps, false⟩])
      (hpost : post ≠ []) (h : N = ps + sz)
  | move (hpre : pre ≠ []) (hpost : post ≠ [])
      (hprev : ∀ front ps, pre = front ++ [⟨ps, false⟩] → ps + sz < N)
      (hr : ExtendInRange L (L.kheapBase + span (pre ++ ⟨sz, true⟩ :: post)) N)

theorem safe_preserves (c own : Caller)
    (ok : ℕ → Bool) (h : WellFormed L s (pre ++ ⟨sz, true⟩ :: post)) (hn : NoWrap L n)
    (hs : Safe L pre sz post (heapIntGetBlockSize L n)) :
    Preserves L s pre sz post n
      (heapReallocate L s c own (s.heapStart + span pre + L.headBytes) n ok) := by
  obtain ⟨hal, hfit, -⟩ := heapIntGetBlockSize_spec hn
  rcases lt_or_ge sz (heapIntGetBlockSize L n) with hlt | hle
  swap
  · rw [heapReallocate_keep c own ok h hle]
    exact keep_preserves h (by omega)
  rw [heapReallocate_eq c own ok h hlt]
  have hend : s.heapEnd = L.kheapBase + span (pre ++ ⟨sz, true⟩ :: post) := by
    rw [tiles_end h.tiles, h.start_eq]
  have move : (ExtendInRange L (L.kheapBase + span (pre ++ ⟨sz, true⟩ :: post))
      (heapIntGetBlockSize L n)) → Preserves L s pre sz post n (reallocMove L s c own
        (s.heapStart + span pre) (s.heapStart + span pre + L.headBytes) n ok) :=
    fun hr => move_preserves c own ok h hn (hend ▸ hr) hlt
  generalize heapIntGetBlockSize L n = N at *
  rcases post with _ | ⟨⟨ns, used⟩, rest⟩
  · cases hs with
    | keep hle => omega
    | up _ _ hpost => simp at hpost
    | down _ _ _ hpost => exact absurd rfl hpost
    | move _ hpost => exact absurd rfl hpost
  rw [roomWith_next h, bind_some]
  by_cases hup : used = false ∧ N ≤ ns + sz
  · obtain ⟨rfl, hle⟩ := hup
    simp only [hle, and_self, decide_true, ↓reduceIte]
    exact growUp_preserves c h hlt (by omega) hal hfit
  simp only [hup, decide_false, Bool.false_eq_true, ↓reduceIte]
  have notUp : ∀ k tail, Block.mk ns used :: rest = ⟨k, false⟩ :: tail → ¬ N ≤ sz + k := by
    rintro k tail ⟨⟩ hle
    exact hup ⟨rfl, by omega⟩
  rcases List.eq_nil_or_concat pre with rfl | ⟨front, ⟨ps, below⟩, rfl⟩
  · cases hs with
    | keep hle => omega
    | up k tail hpost hle => exact absurd hle (notUp k tail hpost)
    | down front ps hpre => simp at hpre
    | move hpre => exact absurd rfl hpre
  rw [List.concat_eq_append] at *
  obtain ⟨hprev, hroom⟩ := roomWith_prev (N := N) h
  rw [hprev, bind_some, hroom, bind_some]
  by_cases hdown : below = false ∧ N ≤ ps + sz
  · obtain ⟨rfl, hle⟩ := hdown
    obtain rfl : N = ps + sz := by
      cases hs with
      | keep hle => omega
      | up k tail hpost hle => exact absurd hle (notUp k tail hpost)
      | down front' ps' hpre _ heq =>
        obtain ⟨-, rfl⟩ := by simpa using hpre
        exact heq
      | move _ _ hprev =>
        have := hprev front ps rfl
        omega
    have h' : WellFormed L s (front ++ ⟨ps, false⟩ :: ⟨sz, true⟩ :: ⟨ns, used⟩ :: rest) := by
      simpa using h
    have hgrow := growDown_preserves (n := n) c h' hal hfit
    simpa [← add_assoc] using hgrow
  · simp only [hdown, decide_false, Bool.false_eq_true, ↓reduceIte]
    apply move
    cases hs with
    | keep hle => omega
    | up k tail hpost hle => exact absurd hle (notUp k tail hpost)
    | down front' ps' hpre _ heq =>
      obtain ⟨-, rfl, rfl⟩ := by simpa using hpre
      exact absurd ⟨rfl, by omega⟩ hdown
    | move _ _ _ hr => exact hr

end KernelHeapReallocate
