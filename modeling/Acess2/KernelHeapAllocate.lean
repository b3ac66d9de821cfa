import Acess2.KernelHeapMerge

/-! # Heap_Allocate and Heap_Deallocate

Specifications of the allocator against the block list. The validation walk and the
search are inductions over the tiling; marking and splitting a block are executed
symbolically on the one block they change. -/
namespace KernelHeapAllocate

open ByteMemory Function Option Nat KernelHeapModel KernelHeapBlocks KernelHeapAreas KernelHeapMerge

attribute [local congr] bind_congr_left

variable {L : Layout} {s : Heap} {pre post : List Block} {b : Block}

theorem validateWalk_eq (fuel : ℕ) (h : WellFormed L s (pre ++ post)) (hf : post.length < fuel) :
    validateWalk L s fuel (s.heapStart + span pre) = some s.heapEnd := by
  induction post generalizing pre fuel with
  | nil =>
    have hend : s.heapEnd = s.heapStart + span pre := by simpa using tiles_end h.tiles
    obtain ⟨fuel, rfl⟩ := exists_eq_succ_of_ne_zero (ne_of_gt hf)
    simp [validateWalk, hend]
  | cons b post ih =>
    obtain ⟨fuel, rfl⟩ := exists_eq_succ_of_ne_zero (ne_of_gt (lt_of_le_of_lt (zero_le _) hf))
    obtain ⟨hb, hend, hmod, -⟩ := h.block
    have hL := layout_core L
    have hbm := hb.min_le
    have hpos : ¬ b.size = 0 := ne_of_gt hb.pos
    have hal : ¬ b.size % L.minSize ≠ 0 := by simpa using mod_eq_zero_of_dvd hb.aligned
    have hmagic : ¬ (magicOf b.used ≠ magicFree ∧ magicOf b.used ≠ magicUsed) := by
      cases b.used <;> simp
    have hnext : L.add (s.heapStart + span pre + b.size - L.footBytes) L.footBytes =
        s.heapStart + span (pre ++ [b]) := by
      rw [add_eq (by omega)]
      simp only [span_append, span_cons, span_nil]
      omega
    have hlt : s.heapStart + span pre < s.heapEnd := by omega
    have step : validateWalk L s fuel (s.heapStart + span (pre ++ [b])) = some s.heapEnd :=
      ih fuel (by simpa using h) (by simpa using hf)
    simp only [validateWalk, hlt, h.heapThisFoot_eq, h.headSize_eq, h.headMagic_eq,
      h.footMagic_eq, h.footHead_eq, hpos, hal, hmagic, hnext, step, ne_eq, not_true_eq_false,
      bind_eq_bind, bind_some, ↓reduceIte]

theorem length_lt_modulus (h : WellFormed L s post) : post.length < L.modulus := by
  have hlen : ∀ (bs : List Block) (a e : ℕ), Tiles L s.mem a bs e → bs.length ≤ span bs := by
    intro bs
    induction bs with
    | nil => exact fun _ _ _ => le_rfl
    | cons b bs ih =>
      intro a e ht
      have hpos := ht.1.pos
      have hrest := ih _ _ ht.2
      simp only [List.length_cons, span_cons]
      omega
  have hspan := hlen _ _ _ h.tiles
  have hend := tiles_end h.tiles
  have hL := layout_facts L
  have hle := h.end_le
  omega

theorem heapValidate_eq (h : WellFormed L s post) : heapValidate L s = some () := by
  have hwalk : validateWalk L s L.modulus (s.heapStart + span []) = some s.heapEnd :=
    validateWalk_eq _ h (length_lt_modulus h)
  rw [span_nil, add_zero] at hwalk
  simp only [heapValidate, hwalk, bind_eq_bind, bind_some, le_refl, if_true, pure_def]

/-- What the traversal of Heap_Allocate may report about the blocks `bs` at `a`. -/
def Fits (a bytes : ℕ) (bs : List Block) : Found → Prop
  | .corrupt => False
  | .perfect head => ∃ pre post, bs = pre ++ ⟨bytes, false⟩ :: post ∧ head = a + span pre
  | .best (some head) =>
    ∃ pre k post, bytes < k ∧ bs = pre ++ ⟨k, false⟩ :: post ∧ head = a + span pre
  | .best none => True

theorem findBlock_spec (fuel bytes : ℕ) (best : Option ℕ) (bestSize : ℕ)
    (h : WellFormed L s (pre ++ post)) (hf : post.length < fuel)
    (hbest : Fits s.heapStart bytes (pre ++ post) (.best best)) :
    ∃ r, findBlock L s bytes fuel (s.heapStart + span pre) best bestSize = some r ∧
      Fits s.heapStart bytes (pre ++ post) r := by
  induction post generalizing pre fuel best bestSize with
  | nil =>
    have hend : s.heapEnd = s.heapStart + span pre := by simpa using tiles_end h.tiles
    obtain ⟨fuel, rfl⟩ := exists_eq_succ_of_ne_zero (ne_of_gt hf)
    exact ⟨.best best, by simp [findBlock, hend], hbest⟩
  | cons b post ih =>
    obtain ⟨fuel, rfl⟩ := exists_eq_succ_of_ne_zero (ne_of_gt (lt_of_le_of_lt (zero_le _) hf))
    obtain ⟨hb, hend, hmod, -⟩ := h.block
    have hal : ¬ b.size % L.minSize ≠ 0 := by simpa using mod_eq_zero_of_dvd hb.aligned
    have hmin : ¬ b.size < L.minSize := not_lt.mpr hb.min_le
    have hlim : ¬ L.sizeLimit < b.size := by
      have h1 := L.below_limit
      have h2 := h.end_le
      have h3 := h.start_eq
      unfold Layout.sizeLimit Layout.modulus
      omega
    have hlt : s.heapStart + span pre < s.heapEnd := by
      have hpos := hb.pos
      omega
    have hnext : L.add (s.heapStart + span pre) b.size = s.heapStart + span (pre ++ [b]) := by
      rw [add_eq (by omega)]
      simp [add_assoc]
    -- the rest of the traversal, from whatever has been remembered so far
    have step : ∀ best bestSize, Fits s.heapStart bytes (pre ++ b :: post) (.best best) →
        ∃ r, findBlock L s bytes fuel (s.heapStart + span (pre ++ [b])) best bestSize = some r ∧
          Fits s.heapStart bytes (pre ++ b :: post) r := by
      intro best bestSize hbest
      rw [List.append_cons pre b post] at h hbest ⊢
      exact ih fuel best bestSize h (by simpa using hf) hbest
    simp only [findBlock, hlt, h.headSize_eq, h.headMagic_eq, hal, hmin, hlim, hnext,
      bind_eq_bind, bind_some, ↓reduceIte]
    obtain ⟨size, used⟩ := b
    cases used with
    | true =>
      exact step best bestSize hbest
    | false =>
      simp only [magicOf_false, magicUsed_ne_free.symm, ↓reduceIte, ne_eq, not_true_eq_false]
      split
      · exact step best bestSize hbest
      split
      next hsize => exact ⟨_, rfl, pre, post, by rw [hsize], rfl⟩
      next hge hne =>
        split
        · exact step _ _ ⟨pre, size, post, by omega, rfl, rfl⟩
        · exact step best bestSize hbest

variable {m : Memory} {mp : ℕ → Bool} {st en a n sz k : ℕ} {c : Caller}

section

variable (st) (en)

theorem markUsed_spec (c : Caller) (n : ℕ) (hc : Covered mp a (a + sz))
    (hroom : L.headBytes + L.footBytes ≤ sz) (hb : BlockAt L m a ⟨sz, false⟩) :
    ∃ m', markUsed L ⟨m, mp, st, en⟩ c a n = some ⟨m', mp, st, en⟩ ∧
      (∀ x, x < a ∨ a + sz ≤ x → m' x = m x) ∧ BlockAt L m' a ⟨sz, true⟩ := by
  obtain ⟨f, hf, hf', hap⟩ := usedWords a hroom
  have acc := access_covered hc st en
  obtain ⟨hpos, hal, hsize, -, hfm, hfh⟩ := hb
  simp only [hf'] at hfm hfh
  simp only [apart_cons, List.forall_mem_cons, Nat.add_zero] at hap
  refine ⟨?mem, ?eq, ?frame, ?block⟩
  case eq =>
    simp only [markUsed, setMagic, setFile, setLine, setValidSize, setTime, bind_eq_bind]
    simp only [acc, hap, bind_some]
    rfl
  case frame =>
    intro x hx
    simp only [store_frame hx, hap]
  case block =>
    refine ⟨hpos, hal, ?_, ?_, ?_, ?_⟩ <;>
      simp only [hf', load_store_disjoint, load_store_word, magics_lt L, hap, true_or, or_true,
        hsize, hfm, hfh, magicOf_true]

theorem markFree_spec (c : Caller) (hc : Covered mp a (a + sz)) (hb : BlockAt L m a ⟨sz, true⟩) :
    ∃ m', markFree L ⟨m, mp, st, en⟩ c a = some ⟨m', mp, st, en⟩ ∧
      (∀ x, x < a ∨ a + sz ≤ x → m' x = m x) ∧ BlockAt L m' a ⟨sz, false⟩ := by
  obtain ⟨f, hf, hf', hap⟩ := freeWords a hb.min_le
  have acc := access_covered hc st en
  obtain ⟨hpos, hal, hsize, -, hfm, hfh⟩ := hb
  simp only [hf'] at hfm hfh
  simp only [apart_cons, List.forall_mem_cons, Nat.add_zero] at hap
  refine ⟨?mem, ?eq, ?frame, ?block⟩
  case eq =>
    simp only [markFree, setMagic, setFile, setLine, setValidSize, bind_eq_bind]
    simp only [acc, hap, bind_some]
    rfl
  case frame =>
    intro x hx
    simp only [store_frame hx, hap]
  case block =>
    refine ⟨hpos, hal, ?_, ?_, ?_, ?_⟩ <;>
      simp only [hf', load_store_disjoint, load_store_word, magics_lt L, hap, true_or, or_true,
        hsize, hfm, hfh, magicOf_false]

theorem takeFront_spec (c : Caller) (n : ℕ) (hc : Covered mp a (a + sz))
    (hmod : a + sz < L.modulus) (hroom : L.headBytes + L.footBytes ≤ sz) (hal : L.minSize ∣ sz)
    (m : Memory) :
    ∃ m', takeFront L ⟨m, mp, st, en⟩ c a sz n = some ⟨m', mp, st, en⟩ ∧
      (∀ x, x < a ∨ a + sz ≤ x → m' x = m x) ∧ BlockAt L m' a ⟨sz, true⟩ := by
  have hL := layout_core L
  obtain ⟨f, hf, hf', hap⟩ := usedWords a hroom
  have acc := access_covered hc st en
  have hfoot := foot_eq hf hmod
  have hpos : 0 < sz := by omega
  simp only [apart_cons, List.forall_mem_cons, Nat.add_zero] at hap
  refine ⟨?mem, ?eq, ?frame, ?block⟩
  case eq =>
    simp only [takeFront, headSize, setSize, setValidSize, setMagic, setFile, setLine, setTime,
      setFootHead, setFootMagic, heapThisFoot, bind_eq_bind, pure_def]
    simp only [acc, hap, bind_some, load_store_disjoint, load_store_word, hfoot, true_or]
    rfl
  case frame =>
    intro x hx
    simp only [store_frame hx, hap]
  case block =>
    refine ⟨hpos, hal, ?_, ?_, ?_, ?_⟩ <;>
      simp only [hf', load_store_disjoint, load_store_word, hfoot, magics_lt L, hap, true_or,
        or_true, magicOf_true]

theorem leaveRest_spec (hc : Covered mp a (a + sz))
    (hmod : a + sz < L.modulus) (hal : L.minSize ∣ sz) (hpos : 0 < sz)
    (hfm : load m (a + sz - L.footBytes) L.wordBytes = magicFoot) :
    ∃ m', leaveRest L ⟨m, mp, st, en⟩ a sz = some ⟨m', mp, st, en⟩ ∧
      (∀ x, x < a ∨ a + sz ≤ x → m' x = m x) ∧ BlockAt L m' a ⟨sz, false⟩ := by
  obtain ⟨f, hf, hf', hap⟩ := freeWords a (le_of_dvd hpos hal)
  rw [hf'] at hfm
  have acc := access_covered hc st en
  have hfoot := foot_eq hf hmod
  simp only [apart_cons, List.forall_mem_cons, Nat.add_zero] at hap
  refine ⟨?mem, ?eq, ?frame, ?block⟩
  case eq =>
    simp only [leaveRest, headSize, setSize, setValidSize, setMagic, setFile, setLine,
      setFootHead, heapThisFoot, bind_eq_bind, pure_def]
    simp only [acc, hap, bind_some, load_store_disjoint, load_store_word, hfoot, true_or]
    rfl
  case frame =>
    intro x hx
    simp only [store_frame hx, hap]
  case block =>
    refine ⟨hpos, hal, ?_, ?_, ?_, ?_⟩ <;>
      simp only [hf', load_store_disjoint, load_store_word, hfoot, magics_lt L, hap, true_or,
        or_true, hfm, magicOf_false]

theorem splitBlock_spec (c : Caller) (n : ℕ) (hc : Covered mp a (a + k)) (hmod : a + k < L.modulus)
    (hroom : L.headBytes + L.footBytes ≤ sz) (hal : L.minSize ∣ sz) (hlt : sz < k)
    (hb : BlockAt L m a ⟨k, false⟩) :
    ∃ m', splitBlock L ⟨m, mp, st, en⟩ c a sz n = some ⟨m', mp, st, en⟩ ∧
      (∀ x, x < a ∨ a + k ≤ x → m' x = m x) ∧ BlockAt L m' a ⟨sz, true⟩ ∧
      BlockAt L m' (a + sz) ⟨k - sz, false⟩ := by
  obtain ⟨r, rfl⟩ : ∃ r, k = sz + r := ⟨k - sz, by omega⟩
  have hral : L.minSize ∣ r := (Nat.dvd_add_right hal).mp hb.aligned
  have hrm : L.minSize ≤ r := le_of_dvd (by omega) hral
  have hL := layout_core L
  obtain ⟨m₁, heq₁, hframe₁, hb₁⟩ := takeFront_spec st en c n
    (fun x hl hu => hc x hl (by omega)) (show a + sz < L.modulus by omega) hroom hal m
  have hfm : load m₁ (a + sz + r - L.footBytes) L.wordBytes = magicFoot := by
    refine (load_congr fun x hl _ => hframe₁ x (.inr (by omega))).trans ?_
    rw [add_assoc]
    exact hb.foot_magic
  obtain ⟨m₂, heq₂, hframe₂, hb₂⟩ := leaveRest_spec st en
    (fun x hl hu => hc x (by omega) (by omega)) (by omega) hral (by omega) hfm
  have acc := access_covered hc st en
  have hsize := acc.1 m a L.wordBytes le_rfl (by omega)
  have hsize₁ := acc.1 m₁ a L.wordBytes le_rfl (by omega)
  rw [hb.size_eq] at hsize
  rw [hb₁.size_eq] at hsize₁
  refine ⟨m₂, ?_, ?_, ?_, ?_⟩
  · simp only [splitBlock, headSize, heapNextHead, hsize, heq₁, hsize₁, bind_eq_bind,
      bind_some, pure_def]
    rw [add_eq (by omega), sub_eq (by omega) (by omega), Nat.add_sub_cancel_left, heq₂]
  · intro x hx
    exact (hframe₂ x (by omega)).trans (hframe₁ x (by omega))
  · exact hb₁.congr fun x _ hu => hframe₂ x (.inl hu)
  · rw [Nat.add_sub_cancel_left]
    exact hb₂

theorem createBlock_spec (hc : Covered mp a (a + sz))
    (hmod : a + sz < L.modulus) (hal : L.minSize ∣ sz) (hpos : 0 < sz) (m : Memory) :
    ∃ m', createBlock L ⟨m, mp, st, en⟩ a sz = some ⟨m', mp, st, en⟩ ∧
      (∀ x, x < a ∨ a + sz ≤ x → m' x = m x) ∧ BlockAt L m' a ⟨sz, false⟩ := by
  obtain ⟨f, hf, hf', hap⟩ := freeWords a (le_of_dvd hpos hal)
  have acc := access_covered hc st en
  have hfoot := foot_eq hf hmod
  simp only [apart_cons, List.forall_mem_cons, Nat.add_zero] at hap
  refine ⟨?mem, ?eq, ?frame, ?block⟩
  case eq =>
    simp only [createBlock, headSize, setSize, setMagic, setFootHead, setFootMagic,
      heapThisFoot, bind_eq_bind, pure_def]
    simp only [acc, hap, bind_some, load_store_disjoint, load_store_word, hfoot, true_or]
    rfl
  case frame =>
    intro x hx
    simp only [store_frame hx, hap]
  case block =>
    refine ⟨hpos, hal, ?_, ?_, ?_, ?_⟩ <;>
      simp only [hf', load_store_disjoint, load_store_word, hfoot, magics_lt L, hap, true_or,
        or_true, magicOf_false]

end

/-- Heap_Extend computes the end of the grown heap without wrapping, or does not get
that far. -/
def ExtendInRange (L : Layout) (heapEnd bytes : ℕ) : Prop :=
  heapEnd = L.kheapMax ∨ heapEnd + (bytes + 0xFFF) / 4096 * 4096 < L.modulus

instance (L : Layout) (heapEnd bytes : ℕ) : Decidable (ExtendInRange L heapEnd bytes) :=
  inferInstanceAs (Decidable (_ ∨ _))

theorem extendPages_spec (ok : ℕ → Bool) (s : Heap) (i n : ℕ) :
    ∃ mp r, extendPages L ok s i n = ({ s with mapped := mp }, r) ∧
      (∀ g, s.mapped g = true → mp g = true) ∧
      (r = true → ∀ j, i ≤ j → j < i + n → mp (L.add s.heapEnd (4096 * j) / 4096) = true) := by
  induction n generalizing s i with
  | zero => exact ⟨s.mapped, true, rfl, fun _ h => h, fun _ j h1 h2 => by omega⟩
  | succ n ih =>
    by_cases hok : ok i = true
    · obtain ⟨mp, r, heq, hkeep, hall⟩ := ih
        { s with mapped := update s.mapped (L.add s.heapEnd (4096 * i) / 4096) true }
        (i + 1)
      simp only at heq hkeep hall
      have hold : ∀ g, s.mapped g = true → mp g = true := by
        intro g hg
        apply hkeep
        by_cases h : g = L.add s.heapEnd (4096 * i) / 4096
        · rw [h, update_self]
        · rw [update_of_ne h, hg]
      refine ⟨mp, r, by rw [extendPages, if_pos hok, heq], hold, fun hr j h1 h2 => ?_⟩
      rcases eq_or_lt_of_le h1 with rfl | hlt
      · exact hkeep _ (update_self ..)
      · exact hall hr j hlt (by omega)
    · exact ⟨s.mapped, false, by rw [extendPages, if_neg hok], fun _ h => h, by simp⟩

variable {bs : List Block}

section

variable (h : WellFormed L s bs) (hkeep : ∀ g, s.mapped g = true → mp g = true)
include h hkeep

theorem WellFormed_extend {m' : Memory}
    (hmap : ∀ x, s.heapEnd ≤ x → x < s.heapEnd + k → mp (x / 4096) = true)
    (hk : k % 4096 = 0) (hle : s.heapEnd + k ≤ L.kheapMax)
    (hframe : ∀ x, x < s.heapEnd → m' x = s.mem x) (hb : BlockAt L m' s.heapEnd ⟨k, false⟩) :
    WellFormed L ⟨m', mp, s.heapStart, s.heapEnd + k⟩ (bs ++ [⟨k, false⟩]) := by
  have hend := tiles_end h.tiles
  have hpage := h.end_page
  refine ⟨h.start_eq, hle, by simp only; omega, fun x hl hu => ?_, ?_, fun b hb hu => ?_⟩
  · by_cases hx : x < s.heapEnd
    · exact hkeep _ (h.mapped x hl hx)
    · exact hmap x (by omega) hu
  · rw [tiles_append, ← hend]
    exact ⟨tiles_congr h.tiles fun x _ hx => hframe x hx, hb, rfl⟩
  · rcases List.mem_append.mp hb with hb | hb
    · exact h.room b hb hu
    · rw [List.mem_singleton.mp hb] at hu
      exact absurd hu (by simp)

theorem WellFormed_remap : WellFormed L { s with mapped := mp } bs :=
  ⟨h.start_eq, h.end_le, h.end_page, fun x hl hu => hkeep _ (h.mapped x hl hu), h.tiles, h.room⟩

end

/-- Heap_Extend either refuses and leaves the blocks alone, or ends the heap with a free
block of at least the requested size. -/
theorem heapExtend_spec {bytes : ℕ} (ok : ℕ → Bool)
    (h : WellFormed L s bs) (hr : ExtendInRange L s.heapEnd bytes) (hpos : bytes ≠ 0) :
    ∃ s' r, heapExtend L s bytes ok = some (s', r) ∧ s'.heapStart = s.heapStart ∧
      ((r = 0 ∧ WellFormed L s' bs ∧ s'.mem = s.mem ∧ s'.heapEnd = s.heapEnd) ∨
        ∃ k pre k', JoinsLeft bs k pre k' ∧ bytes ≤ k' ∧ r = s.heapStart + span pre ∧
          WellFormed L s' (pre ++ [⟨k', false⟩]) ∧
          ∀ x, x < s.heapStart + span pre → s'.mem x = s.mem x) := by
  unfold heapExtend
  by_cases hfull : s.heapEnd = L.kheapMax
  · exact ⟨s, 0, by rw [if_pos hfull], rfl, .inl ⟨rfl, h, rfl, rfl⟩⟩
  have hL := layout_facts L
  have hend := tiles_end h.tiles
  have hst := h.start_eq
  have hrange := hr.resolve_left hfull
  have hpages : L.add bytes 0xFFF / 4096 = (bytes + 0xFFF) / 4096 := by rw [add_eq (by omega)]
  have hnew : L.add s.heapEnd ((bytes + 0xFFF) / 4096 * 4096) =
      s.heapEnd + (bytes + 0xFFF) / 4096 * 4096 := add_eq hrange
  rw [if_neg hfull, if_neg hpos, hpages]
  simp only [hnew]
  obtain ⟨p, hp⟩ : ∃ p, (bytes + 0xFFF) / 4096 = p := ⟨_, rfl⟩
  rw [hp] at hrange ⊢
  by_cases hmax : L.kheapMax < s.heapEnd + p * 4096
  · exact ⟨s, 0, by rw [if_pos hmax], rfl, .inl ⟨rfl, h, rfl, rfl⟩⟩
  rw [if_neg hmax]
  obtain ⟨mp, r, heq, hkeep, hall⟩ := extendPages_spec (L := L) ok s 0 p
  rw [heq]
  have hremap := WellFormed_remap h hkeep
  cases r with
  | false =>
    refine ⟨{ s with mapped := mp }, 0, ?_, rfl, .inl ⟨rfl, hremap, rfl, rfl⟩⟩
    simp [heapValidate_eq hremap]
  | true =>
    have hpage := h.end_page
    have hmap : ∀ x, s.heapEnd ≤ x → x < s.heapEnd + p * 4096 → mp (x / 4096) = true := by
      intro x hl hu
      have hj := hall rfl ((x - s.heapEnd) / 4096) (zero_le _) (by omega)
      rw [add_eq (by omega)] at hj
      rwa [show x / 4096 = (s.heapEnd + 4096 * ((x - s.heapEnd) / 4096)) / 4096 by omega]
    obtain ⟨m₁, hcreate, hframe, hb⟩ := createBlock_spec s.heapStart (s.heapEnd + p * 4096)
      hmap hrange (Dvd.dvd.mul_left (minSize_dvd_page L) p) (by omega) s.mem
    have hw := WellFormed_extend h hkeep hmap (by omega) (by omega)
      (fun x hx => hframe x (.inl hx)) hb
    obtain ⟨m₂, pre, k, k', post, hj, hj', hmerge, hw', hframe'⟩ := heapMerge_spec hw
    cases hj'
    simp only [← hend] at hmerge
    refine ⟨⟨m₂, mp, s.heapStart, s.heapEnd + p * 4096⟩, _, ?_, rfl,
      .inr ⟨p * 4096, pre, k, hj, ?_, rfl, hw', ?_⟩⟩
    · simp only [hcreate, bind_eq_bind, bind_some]
      exact hmerge
    · cases hj <;> omega
    · intro x hx
      have hx' : x < s.heapEnd := by
        have hle : span pre ≤ span bs := by
          cases hj <;> simp
        omega
      exact (hframe' x (.inl hx)).trans (hframe x (.inl hx'))

def NoWrap (L : Layout) (n : ℕ) : Prop :=
  n + L.headBytes + L.footBytes + L.minSize - 1 < L.modulus

instance (L : Layout) (n : ℕ) : Decidable (NoWrap L n) := inferInstanceAs (Decidable (_ < _))

theorem heapIntGetBlockSize_spec (h : NoWrap L n) : L.minSize ∣ heapIntGetBlockSize L n ∧
      n + L.headBytes + L.footBytes ≤ heapIntGetBlockSize L n ∧
      heapIntGetBlockSize L n ≤ n + L.headBytes + L.footBytes + L.minSize - 1 := by
  have hL := layout_core L
  unfold NoWrap at h
  simp only [heapIntGetBlockSize, mod_eq_of_lt h]
  have hdiv := div_add_mod (n + L.headBytes + L.footBytes + L.minSize - 1) L.minSize
  have hmod := mod_lt (n + L.headBytes + L.footBytes + L.minSize - 1) (show 0 < L.minSize by omega)
  rw [mul_comm] at hdiv
  refine ⟨dvd_mul_left _ _, ?_, ?_⟩ <;> omega

/-- A free block of the list becomes, whole or in part, a used block of size `sz` at the
given offset. -/
inductive Takes (sz : ℕ) : List Block → ℕ → List Block → Prop
  | perfect (pre post : List Block) :
      Takes sz (pre ++ ⟨sz, false⟩ :: post) (span pre) (pre ++ ⟨sz, true⟩ :: post)
  | split (pre : List Block) (k : ℕ) (post : List Block) (h : sz < k) :
      Takes sz (pre ++ ⟨k, false⟩ :: post) (span pre)
        (pre ++ ⟨sz, true⟩ :: ⟨k - sz, false⟩ :: post)

inductive Allocates (sz : ℕ) (bs : List Block) (ofs : ℕ) (bs' : List Block) : Prop
  | found (h : Takes sz bs ofs bs')
  | grown (k k' : ℕ) (pre : List Block) (hj : JoinsLeft bs k pre k')
      (h : Takes sz (pre ++ [⟨k', false⟩]) ofs bs')

variable {bs' : List Block} {ofs : ℕ}

theorem markUsed_wellFormed (c : Caller) (n : ℕ) (h : WellFormed L s (pre ++ ⟨sz, false⟩ :: post))
    (hroom : L.headBytes + L.footBytes ≤ sz) :
    ∃ m', markUsed L s c (s.heapStart + span pre) n = some { s with mem := m' } ∧
      WellFormed L { s with mem := m' } (pre ++ ⟨sz, true⟩ :: post) ∧
      ∀ x, x < s.heapStart + span pre ∨ s.heapStart + span pre + sz ≤ x → m' x = s.mem x := by
  obtain ⟨hb, hend, -, -⟩ := h.block
  simp only at hend
  obtain ⟨m', heq, hframe, hb'⟩ := markUsed_spec s.heapStart s.heapEnd c n
    (fun x hl hu => h.mapped x (by omega) (by omega)) hroom hb
  exact ⟨m', heq, h.replace [⟨sz, false⟩] hb' (by simp) hframe fun _ => hroom, hframe⟩

theorem splitBlock_wellFormed (c : Caller) (n : ℕ) (h : WellFormed L s (pre ++ ⟨k, false⟩ :: post))
    (hroom : L.headBytes + L.footBytes ≤ sz) (hal : L.minSize ∣ sz) (hlt : sz < k) :
    ∃ m', splitBlock L s c (s.heapStart + span pre) sz n = some { s with mem := m' } ∧
      WellFormed L { s with mem := m' } (pre ++ ⟨sz, true⟩ :: ⟨k - sz, false⟩ :: post) ∧
      ∀ x, x < s.heapStart + span pre ∨ s.heapStart + span pre + k ≤ x → m' x = s.mem x := by
  obtain ⟨hb, hend, hmod, -⟩ := h.block
  simp only at hend
  obtain ⟨m', heq, hframe, hb', hb''⟩ := splitBlock_spec s.heapStart s.heapEnd c n
    (fun x hl hu => h.mapped x (by omega) (by omega)) (by omega) hroom hal hlt hb
  have h' : WellFormed L s (pre ++ ([⟨k, false⟩] ++ post)) := h
  have hmid : Tiles L m' (s.heapStart + span pre) [⟨sz, true⟩, ⟨k - sz, false⟩]
      (s.heapStart + span pre + span [⟨k, false⟩]) := by
    refine ⟨hb', hb'', ?_⟩
    simp only [Tiles, span_cons, span_nil]
    omega
  exact ⟨m', heq, h'.splice (by simpa using hframe) hmid (by simpa using hroom), hframe⟩

theorem JoinsLeft_areas {k' : ℕ} (hj : JoinsLeft bs k pre k') :
    dataAreas L a (pre ++ [⟨k', false⟩]) = dataAreas L a bs := by
  have h := joins_areas (L := L) hj (.used k' [] (by simp)) a
  rw [h, dataAreas_append]
  simp [dataAreas]

theorem take_spec (c : Caller) (h : WellFormed L s (pre ++ ⟨k, false⟩ :: post))
    (hroom : L.headBytes + L.footBytes ≤ sz) (hal : L.minSize ∣ sz) (hle : sz ≤ k) :
    ∃ m' bs', (if k = sz then markUsed L s c (s.heapStart + span pre) n
        else splitBlock L s c (s.heapStart + span pre) sz n) = some { s with mem := m' } ∧
      Takes sz (pre ++ ⟨k, false⟩ :: post) (span pre) bs' ∧
      WellFormed L { s with mem := m' } bs' ∧
      SameOn (dataAreas L s.heapStart (pre ++ ⟨k, false⟩ :: post)) s.mem m' := by
  rcases eq_or_lt_of_le hle with rfl | hlt
  · obtain ⟨m', heq, hw, hframe⟩ := markUsed_wellFormed c n h hroom
    exact ⟨m', _, by rw [if_pos rfl, heq], .perfect pre post, hw, sameOn_of_frame h hframe⟩
  · obtain ⟨m', heq, hw, hframe⟩ := splitBlock_wellFormed c n h hroom hal hlt
    exact ⟨m', _, by rw [if_neg (ne_of_gt hlt), heq], .split pre k post hlt, hw,
      sameOn_of_frame h hframe⟩

/-- Heap_Allocate returns NULL and leaves the blocks, or makes one new used block. -/
theorem heapAllocate_spec (c : Caller) (ok : ℕ → Bool) (h : WellFormed L s bs)
    (hn : NoWrap L n) (hr : ExtendInRange L s.heapEnd (heapIntGetBlockSize L n)) :
    ∃ s' q, heapAllocate L s c n ok = some (s', q) ∧ s'.heapStart = s.heapStart ∧
      ((q = 0 ∧ WellFormed L s' bs ∧ s'.mem = s.mem ∧ s'.heapEnd = s.heapEnd) ∨
        ∃ ofs bs', Allocates (heapIntGetBlockSize L n) bs ofs bs' ∧
          q = s.heapStart + ofs + L.headBytes ∧ WellFormed L s' bs' ∧
          SameOn (dataAreas L s.heapStart bs) s.mem s'.mem) := by
  unfold heapAllocate
  by_cases hzero : n = 0
  · exact ⟨s, 0, by rw [if_pos hzero], rfl, .inl ⟨rfl, h, rfl, rfl⟩⟩
  obtain ⟨hal, hroom, -⟩ := heapIntGetBlockSize_spec hn
  generalize heapIntGetBlockSize L n = sz at hal hroom hr ⊢
  have hroom' : L.headBytes + L.footBytes ≤ sz := by omega
  have hfind : ∃ r, findBlock L s sz L.modulus (s.heapStart + span []) none uintMax = some r ∧
      Fits s.heapStart sz ([] ++ bs) r :=
    findBlock_spec _ sz none uintMax h (length_lt_modulus h) trivial
  rw [span_nil, add_zero, List.nil_append] at hfind
  obtain ⟨r, hfind, hfits⟩ := hfind
  rw [if_neg hzero]
  simp only [heapValidate_eq h, hfind, bind_eq_bind, bind_some]
  match r with
  | .corrupt => exact absurd hfits id
  | .perfect head =>
    obtain ⟨pre, post, rfl, rfl⟩ := hfits
    obtain ⟨m', bs', heq, ht, hw, hsame⟩ := take_spec (n := n) c h hroom' hal le_rfl
    rw [if_pos rfl] at heq
    exact ⟨{ s with mem := m' }, _, by simp only [heq, bind_some, pure_def], rfl,
      .inr ⟨_, bs', .found ht, rfl, hw, hsame⟩⟩
  | .best (some best) =>
    obtain ⟨pre, k, post, hlt, rfl, rfl⟩ := hfits
    obtain ⟨m', bs', heq, ht, hw, hsame⟩ := take_spec (n := n) c h hroom' hal hlt.le
    rw [if_neg (ne_of_gt hlt)] at heq
    exact ⟨{ s with mem := m' }, _, by simp only [heq, bind_some, pure_def], rfl,
      .inr ⟨_, bs', .found ht, rfl, hw, hsame⟩⟩
  | .best none =>
    obtain ⟨s₁, r₁, hext, hstart, hres⟩ := heapExtend_spec ok h hr (by omega)
    simp only [hext, bind_some]
    rcases hres with ⟨rfl, hw, hmem, hend⟩ | ⟨k, pre, k', hj, hle, rfl, hw, hframe⟩
    · exact ⟨s₁, 0, by rw [if_pos rfl, pure_def], hstart, .inl ⟨rfl, hw, hmem, hend⟩⟩
    have hpos := hw.block.2.2.2
    obtain ⟨m', bs', heq, ht, hw', hsame⟩ := take_spec (n := n) c hw hroom' hal hle
    have hsize := hw.headSize_eq
    rw [hstart] at heq hsize hsame hpos
    refine ⟨{ s₁ with mem := m' }, s.heapStart + span pre + L.headBytes, ?_, hstart,
      .inr ⟨_, bs', .grown k k' pre hj ht, rfl, hw', ?_⟩⟩
    · rw [if_neg (by omega), hsize, bind_some]
      split at heq
      next hk => rw [if_pos hk, heq, bind_some, pure_def, hstart]
      next hk => rw [if_neg hk, heq, bind_some, pure_def, hstart]
    · -- the new free block ends the heap, above every data area
      rw [← JoinsLeft_areas hj]
      intro r hr x hl hu
      refine (hsame r hr x hl hu).trans (hframe x ?_)
      rw [dataAreas_append, dataAreas, if_neg (by simp), dataAreas, List.append_nil] at hr
      have := areas_below (fun b hb => hw.room b (List.mem_append_left _ hb)) r hr
      omega

theorem takes_areas (ht : Takes sz bs ofs bs') (a : ℕ) : (dataAreas L a bs').Perm
      ((a + ofs + L.headBytes, sz - L.headBytes - L.footBytes) :: dataAreas L a bs) := by
  cases ht with
  | perfect pre post => exact areas_used a
  | split pre k post hlt =>
    refine (areas_used a).trans (List.Perm.of_eq ?_)
    have hk : sz + (k - sz) = k := by omega
    simp only [dataAreas_append, dataAreas, Bool.false_eq_true, if_false, add_assoc, hk]

theorem allocates_areas (ha : Allocates sz bs ofs bs') (a : ℕ) : (dataAreas L a bs').Perm
      ((a + ofs + L.headBytes, sz - L.headBytes - L.footBytes) :: dataAreas L a bs) := by
  cases ha with
  | found ht => exact takes_areas ht a
  | grown k k' pre hj ht =>
    rw [← JoinsLeft_areas hj]
    exact takes_areas ht a

theorem word_dvd_span {e : ℕ} (h : Tiles L m a bs e) : L.wordBytes ∣ span bs := by
  induction bs generalizing a with
  | nil => simp
  | cons b bs ih =>
    have hmin : L.wordBytes ∣ L.minSize := dvd_mul_left _ _
    exact Nat.dvd_add (hmin.trans h.1.aligned) (ih h.2)

theorem dataPtr_checks (h : WellFormed L s (pre ++ ⟨sz, true⟩ :: post)) :
    s.heapStart + span pre + L.headBytes ≠ L.invlPtr ∧
      (s.heapStart + span pre + L.headBytes) % L.wordBytes = 0 ∧
      s.heapStart + span pre + L.headBytes ≤ s.heapEnd ∧
      L.sub (s.heapStart + span pre + L.headBytes) L.headBytes = s.heapStart + span pre := by
  obtain ⟨hb, hend, hmod, -⟩ := h.block
  simp only at hend
  have hroom := h.used_room
  have hst := h.start_eq
  have hle := h.end_le
  refine ⟨?_, ?_, by omega, ?_⟩
  · have := L.invl_outside
    omega
  · have hspan := word_dvd_span (tiles_append.mp h.tiles).1
    have hbase : L.wordBytes ∣ s.heapStart := by
      rw [hst]
      refine Dvd.dvd.trans ?_ (dvd_of_mod_eq_zero L.base_page)
      exact Dvd.dvd.trans (dvd_mul_left _ _) (minSize_dvd_page L)
    have hhead := dvd_of_mod_eq_zero L.head_word
    exact Nat.mod_eq_zero_of_dvd (Nat.dvd_add (Nat.dvd_add hbase hspan) hhead)
  · rw [sub_eq (by omega) (by omega)]
    omega

theorem heapDeallocate_spec (c : Caller) (h : WellFormed L s (pre ++ ⟨sz, true⟩ :: post)) :
    ∃ m' pre' k sz' post', JoinsLeft pre sz pre' k ∧ JoinsRight k post sz' post' ∧
      heapDeallocate L s c (s.heapStart + span pre + L.headBytes) = some { s with mem := m' } ∧
      WellFormed L { s with mem := m' } (pre' ++ ⟨sz', false⟩ :: post') ∧
      ∀ x, x < s.heapStart + span pre' ∨ s.heapStart + span pre' + sz' ≤ x → m' x = s.mem x := by
  obtain ⟨hinvl, hal, hle, hsub⟩ := dataPtr_checks h
  obtain ⟨hb, hend, hmod, hpos⟩ := h.block
  simp only at hend
  obtain ⟨m₁, heq₁, hframe₁, hb₁⟩ := markFree_spec s.heapStart s.heapEnd c
    (fun x hl hu => h.mapped x (by omega) (by omega)) hb
  have hw₁ := h.replace [⟨sz, true⟩] hb₁ (by simp) hframe₁ (by simp)
  obtain ⟨m₂, pre', k, sz', post', hj, hj', heq₂, hw₂, hframe₂⟩ := heapMerge_spec hw₁
  refine ⟨m₂, pre', k, sz', post', hj, hj', ?_, hw₂, ?_⟩
  · have hrange : ¬ (s.heapStart + span pre + L.headBytes < s.heapStart ∨
        s.heapEnd < s.heapStart + span pre + L.headBytes) := by omega
    have hnull : ¬ s.heapStart + span pre + L.headBytes = 0 := by omega
    simp only [heapDeallocate, hinvl, hnull, hal, hrange, hsub, h.headMagic_eq,
      h.heapThisFoot_eq, h.footHead_eq, h.footMagic_eq, heq₁, heq₂, magicOf_true,
      magicUsed_ne_free, ne_eq, not_true_eq_false, bind_eq_bind, bind_some,
      pure_def, ↓reduceIte]
  · intro x hx
    refine (hframe₂ x hx).trans (hframe₁ x ?_)
    have hcover : span pre' ≤ span pre ∧ span pre + sz ≤ span pre' + sz' := by
      cases hj <;> cases hj' <;> simp <;> omega
    omega

end KernelHeapAllocate
