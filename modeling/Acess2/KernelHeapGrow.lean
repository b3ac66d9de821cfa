import Acess2.KernelHeapAllocate

/-! # Growing a block in place

The header and footer surgery of Heap_Reallocate, executed symbolically on the two blocks
it concerns: upwards exactly or with a remainder, and downwards with the copy of the data. -/
namespace KernelHeapGrow

open ByteMemory List Option Nat KernelHeapModel KernelHeapBlocks
attribute [local congr] bind_congr_left

variable {L : Layout}

variable {m : Memory} {mp : ℕ → Bool} {a b n g sz ns k : ℕ}

variable (st en : ℕ)
include st en

/-- The next block is swallowed whole; its foot now closes the grown block. -/
theorem growWhole_spec (c : Caller) (v : ℕ) (hc : Covered mp a (b + ns)) (hmod : b + ns < L.modulus)
    (hroom : L.headBytes + L.footBytes ≤ sz) (hb : a + sz = b)
    (hg : g + L.footBytes = b + ns)
    (hu : BlockAt L m a ⟨sz, true⟩) (hf : BlockAt L m b ⟨ns, false⟩) :
    ∃ m', growWhole L ⟨m, mp, st, en⟩ c a b g (sz + ns) v = some ⟨m', mp, st, en⟩ ∧
      (∀ x, x < a ∨ a + L.headBytes ≤ x ∧ x < b ∨ b + ns ≤ x → m' x = m x) ∧
      BlockAt L m' a ⟨sz + ns, true⟩ := by
  have hL := layout_facts L
  have hmin : L.minSize ≤ ns := hf.min_le
  have hap : Apart [(a, 0), (a, L.wordBytes), (a + L.validSizeOfs, 4),
      (a + L.fileOfs, L.wordBytes), (a + L.lineOfs, 4), (a + L.magicOfs, L.wordBytes),
      (a + L.headBytes, 0), (b, 0), (b, L.wordBytes), (b + L.magicOfs, L.wordBytes),
      (g, L.wordBytes), (g + L.wordBytes, L.wordBytes), (b + ns, 0)] := by
    clear hc hu hf
    repeat' first | apply apart_single | apply apart_cons_cons
    all_goals (simp only; omega)
  have acc := access_covered hc st en
  have hg' : a + (sz + ns) - L.footBytes = g := by omega
  have hsw : sz + ns < L.modulus := by omega
  have haw : a < L.modulus := by omega
  have hpos : 0 < sz + ns := by omega
  have hwin : a ≤ a + L.headBytes ∧ a + L.headBytes ≤ b ∧ b ≤ b + ns := by omega
  have hgm := hf.foot_magic
  simp only [show b + ns - L.footBytes = g by omega] at hgm
  simp only [apart_cons, forall_mem_cons, add_zero] at hap
  refine ⟨?mem, ?eq, ?frame, ?block⟩
  case eq =>
    simp only [growWhole, setSize, setValidSize, setMagic, setFile, setLine, setFootHead,
      bind_eq_bind]
    simp only [acc, hap, bind_some]
    rfl
  case frame =>
    intro x hx
    simp only [store_frame_two hx hwin, hap, and_self, true_or, or_true]
  case block =>
    refine ⟨hpos, Nat.dvd_add hu.aligned hf.aligned, ?_, ?_, ?_, ?_⟩ <;>
      simp only [hg', load_store_disjoint, load_store_word, hsw, haw, hap, true_or, or_true,
        hu.magic_eq, hgm]

theorem growFront_spec (c : Caller) (v : ℕ) (hc : Covered mp a (a + n)) (hmod : a + n < L.modulus)
    (hroom : L.headBytes + L.footBytes ≤ n) (hal : L.minSize ∣ n)
    (hm : load m (a + L.magicOfs) L.wordBytes = magicUsed) :
    ∃ m', growFront L ⟨m, mp, st, en⟩ c a n v = some ⟨m', mp, st, en⟩ ∧
      (∀ x, x < a ∨ a + L.headBytes ≤ x ∧ x + L.footBytes < a + n ∨ a + n ≤ x → m' x = m x) ∧
      BlockAt L m' a ⟨n, true⟩ := by
  have hL := layout_core L
  obtain ⟨f, hf, hf', hap⟩ := usedWords a hroom
  have acc := access_covered hc st en
  have hfoot := foot_eq hf hmod
  have hpos : 0 < n := by omega
  have hwin : a ≤ a + L.headBytes ∧ a + L.headBytes ≤ f ∧ f ≤ a + n := by omega
  simp only [apart_cons, forall_mem_cons, add_zero] at hap
  refine ⟨?mem, ?eq, ?frame, ?block⟩
  case eq =>
    simp only [growFront, headSize, setSize, setValidSize, setFile, setLine, setFootHead,
      setFootMagic, heapThisFoot, bind_eq_bind, Option.pure_def]
    simp only [acc, hap, bind_some, load_store_disjoint, load_store_word, hfoot, true_or]
    rfl
  case frame =>
    intro x hx
    have hx' : x < a ∨ a + L.headBytes ≤ x ∧ x < f ∨ a + n ≤ x := by
      clear hap
      omega
    simp only [store_frame_two hx' hwin, hap, and_self, true_or, or_true]
  case block =>
    refine ⟨hpos, hal, ?_, ?_, ?_, ?_⟩ <;>
      simp only [hf', load_store_disjoint, load_store_word, hfoot, magics_lt L, hap, true_or,
        or_true, hm, magicOf_true]

theorem growRest_spec (hc : Covered mp a (a + k))
    (hmod : a + k < L.modulus) (hal : L.minSize ∣ k) (hpos : 0 < k)
    (hfm : load m (a + k - L.footBytes) L.wordBytes = magicFoot) :
    ∃ m', growRest L ⟨m, mp, st, en⟩ a k = some ⟨m', mp, st, en⟩ ∧
      (∀ x, x < a ∨ a + k ≤ x → m' x = m x) ∧ BlockAt L m' a ⟨k, false⟩ := by
  obtain ⟨f, hf, hf', hap⟩ := freeWords a (le_of_dvd hpos hal)
  rw [hf'] at hfm
  have acc := access_covered hc st en
  have hfoot := foot_eq hf hmod
  simp only [apart_cons, forall_mem_cons, add_zero] at hap
  refine ⟨?mem, ?eq, ?frame, ?block⟩
  case eq =>
    simp only [growRest, headSize, setSize, setMagic, setFootHead, heapThisFoot,
      bind_eq_bind, Option.pure_def]
    simp only [acc, hap, bind_some, load_store_disjoint, load_store_word, hfoot, true_or]
    rfl
  case frame =>
    intro x hx
    simp only [store_frame hx, hap]
  case block =>
    refine ⟨hpos, hal, ?_, ?_, ?_, ?_⟩ <;>
      simp only [hf', load_store_disjoint, load_store_word, hfoot, magics_lt L, hap, true_or,
        or_true, hfm, magicOf_false]

/-- The upward extension leaves the grown block and, unless the fit is exact, a free remainder. -/
theorem growUp_spec (c : Caller) (v : ℕ) (hc : Covered mp a (b + ns)) (hmod : b + ns < L.modulus)
    (hroom : L.headBytes + L.footBytes ≤ sz) (hb : a + sz = b) (hlt : sz < n)
    (hle : n ≤ sz + ns) (hal : L.minSize ∣ n)
    (hu : BlockAt L m a ⟨sz, true⟩) (hf : BlockAt L m b ⟨ns, false⟩) :
    ∃ m' tail, growUp L ⟨m, mp, st, en⟩ c a b n v = some ⟨m', mp, st, en⟩ ∧
      (∀ x, x < a ∨ a + L.headBytes ≤ x ∧ x < b ∨ b + ns ≤ x → m' x = m x) ∧
      Tiles L m' a (⟨n, true⟩ :: tail) (b + ns) ∧ ∀ t ∈ tail, t.used = false := by
  have hL := layout_core L
  have hmin : L.minSize ≤ ns := hf.min_le
  have acc := access_covered hc st en
  have hszn := acc.1 m b L.wordBytes (by omega) (by omega)
  have hszu := acc.1 m a L.wordBytes le_rfl (by omega)
  rw [hf.size_eq] at hszn
  rw [hu.size_eq] at hszu
  have hsum : L.add ns sz = sz + ns := by rw [add_eq (by omega), add_comm]
  have hfoot : L.sub (L.add b ns) L.footBytes = b + ns - L.footBytes := by
    rw [add_eq hmod, sub_eq (by omega) hmod]
  rcases eq_or_lt_of_le hle with rfl | hlt'
  · obtain ⟨m', heq, hframe, hb'⟩ := growWhole_spec st en c v hc hmod hroom hb
      (show b + ns - L.footBytes + L.footBytes = b + ns by omega) hu hf
    refine ⟨m', [], ?_, hframe, ⟨hb', show _ = _ by simp only; omega⟩, by simp⟩
    simp only [growUp, headSize, heapThisFoot, hszn, hszu, hsum, hfoot, heq,
      bind_eq_bind, bind_some, Option.pure_def, ↓reduceIte]
  obtain ⟨k, hk⟩ : ∃ k, n + k = sz + ns := ⟨sz + ns - n, by omega⟩
  have hkal : L.minSize ∣ k := (Nat.dvd_add_right hal).mp (hk ▸ Nat.dvd_add hu.aligned hf.aligned)
  have hkm : L.minSize ≤ k := le_of_dvd (by omega) hkal
  have hstep : sz + L.minSize ≤ n := by
    obtain ⟨d, rfl⟩ : ∃ d, n = sz + d := ⟨n - sz, by omega⟩
    have := Nat.le_of_dvd (by omega) ((Nat.dvd_add_right hu.aligned).mp hal)
    omega
  obtain ⟨m₁, heq₁, hframe₁, hb₁⟩ := growFront_spec st en c v
    (fun x hl hx => hc x hl (by omega)) (show a + n < L.modulus by omega) (by omega) hal
    hu.magic_eq
  have hfm : load m₁ (a + n + k - L.footBytes) L.wordBytes = magicFoot := by
    rw [show a + n + k = b + ns by omega]
    exact (load_congr fun x hl hx => hframe₁ x (by omega)).trans hf.foot_magic
  obtain ⟨m₂, heq₂, hframe₂, hb₂⟩ := growRest_spec st en
    (fun x hl hx => hc x (by omega) (by omega)) (by omega) hkal (by omega) hfm
  have hsz₁ := acc.1 m₁ a L.wordBytes le_rfl (by omega)
  rw [hb₁.size_eq] at hsz₁
  have hrest : L.sub (sz + ns) n = k := by
    rw [sub_eq (by omega) (by omega)]
    omega
  have hne : ¬ sz + ns = n := by omega
  have hnext : L.add a n = a + n := add_eq (by omega)
  refine ⟨m₂, [⟨k, false⟩], ?_, fun x hx => ?_, ⟨?_, hb₂, show _ = _ by simp only; omega⟩, by simp⟩
  · simp only [growUp, headSize, heapThisFoot, heapNextHead, hszn, hszu, hsum, hfoot, hne,
      heq₁, hsz₁, hnext, hrest, heq₂, bind_eq_bind, bind_some,
      Option.pure_def, ↓reduceIte]
  · exact (hframe₂ x (by omega)).trans (hframe₁ x (by omega))
  · exact hb₁.congr fun x _ hx => hframe₂ x (.inl hx)

/-- The new foot gets its back link but no magic, inside the old data unless the fit is exact. -/
theorem growDownHeads_spec (c : Caller) (v : ℕ) {p ps f : ℕ}
    (hc : Covered mp p (a + sz)) (hmod : a + sz < L.modulus)
    (hroom : L.headBytes + L.footBytes ≤ sz) (ha : p + ps = a) (hlt : sz < n)
    (hle : n ≤ ps + sz) (hal : L.minSize ∣ n) (hf : f + L.footBytes = p + n)
    (hp : BlockAt L m p ⟨ps, false⟩) (hu : BlockAt L m a ⟨sz, true⟩) :
    ∃ m', growDownHeads L ⟨m, mp, st, en⟩ c a p n v =
        some (⟨m', mp, st, en⟩, sz - L.footBytes - L.headBytes) ∧
      (∀ x, x < p ∨ p + L.headBytes ≤ x ∧ x < f + L.wordBytes ∧
        (x < a ∨ a + L.headBytes ≤ x) ∨ f + L.footBytes ≤ x ∧ (x < a ∨ a + L.headBytes ≤ x) →
        m' x = m x) ∧
      load m' p L.wordBytes = n ∧ load m' (p + L.magicOfs) L.wordBytes = magicUsed ∧
      load m' a L.wordBytes = 0 ∧ load m' (f + L.wordBytes) L.wordBytes = p := by
  have hL := layout_facts L
  have hpm : L.minSize ≤ ps := hp.min_le
  -- sizes are multiples of MIN_SIZE, so the new foot is clear of the old head
  have hfa : f + L.footBytes ≤ a ∨ a + L.magicOfs + L.wordBytes ≤ f := by
    rcases lt_or_ge ps n with h | h
    · obtain ⟨d, rfl⟩ : ∃ d, n = ps + d := ⟨n - ps, by omega⟩
      have := Nat.le_of_dvd (by omega) ((Nat.dvd_add_right hp.aligned).mp hal)
      omega
    · omega
  have hap : Apart [(p, 0), (p, L.wordBytes), (p + L.validSizeOfs, 4),
      (p + L.fileOfs, L.wordBytes), (p + L.lineOfs, 4), (p + L.magicOfs, L.wordBytes),
      (p + L.magicOfs + L.wordBytes, 0), (f, L.wordBytes), (f + L.wordBytes, 0),
      (f + L.wordBytes, L.wordBytes), (a + sz, 0)] := by
    clear hc hal hp hu hfa
    repeat' first | apply apart_single | apply apart_cons_cons
    all_goals (simp only; omega)
  have hap' : Apart [(p, 0), (p, L.wordBytes), (p + L.validSizeOfs, 4),
      (p + L.fileOfs, L.wordBytes), (p + L.lineOfs, 4), (p + L.magicOfs, L.wordBytes),
      (a, 0), (a, L.wordBytes), (a + L.magicOfs, L.wordBytes),
      (a + L.magicOfs + L.wordBytes, 0), (a + sz, 0)] := by
    clear hc hal hp hu hfa hap
    repeat' first | apply apart_single | apply apart_cons_cons
    all_goals (simp only; omega)
  -- everything is written in one of three windows
  have hframe : ∀ x, x < p ∨ p + L.headBytes ≤ x ∧ x < f + L.wordBytes ∧
      (x < a ∨ a + L.headBytes ≤ x) ∨ f + L.footBytes ≤ x ∧ (x < a ∨ a + L.headBytes ≤ x) →
      ∀ (m : Memory) b k v, p ≤ b ∧ b + k ≤ p + L.magicOfs + L.wordBytes ∨
        f + L.wordBytes ≤ b ∧ b + k ≤ f + L.wordBytes + L.wordBytes ∨
        a ≤ b ∧ b + k ≤ a + L.magicOfs + L.wordBytes → store m b k v x = m x :=
    fun x hx m b k v hb => store_outside (by omega)
  have h1 : a + L.wordBytes ≤ f + L.wordBytes ∨ f + L.wordBytes + L.wordBytes ≤ a := by omega
  have h2 : f + L.wordBytes + L.wordBytes ≤ a ∨ a + L.wordBytes ≤ f + L.wordBytes := by omega
  have h3 : f + L.wordBytes + L.wordBytes ≤ a + L.magicOfs ∨
      a + L.magicOfs + L.wordBytes ≤ f + L.wordBytes := by omega
  have acc := access_covered hc st en
  have hfoot : L.sub (L.add p n) L.footBytes = f := by
    rw [add_eq (by omega), sub_eq (by omega) (by omega)]
    omega
  have hlen : L.sub (L.sub sz L.footBytes) L.headBytes = sz - L.footBytes - L.headBytes := by
    rw [sub_eq (show L.footBytes ≤ sz by omega) (by omega), sub_eq (by omega) (by omega)]
  have hnw : n < L.modulus := by omega
  have hpw : p < L.modulus := by omega
  have hzw : 0 < L.modulus := by omega
  simp only [apart_cons, forall_mem_cons, add_zero] at hap hap'
  refine ⟨?mem, ?eq, ?frame, ?size, ?magic, ?old, ?link⟩
  case eq =>
    simp only [growDownHeads, headSize, setSize, setValidSize, setMagic, setFile, setLine,
      setFootHead, heapThisFoot, bind_eq_bind, Option.pure_def]
    simp only [acc, hap, hap', h1, bind_some, load_store_disjoint, load_store_word, hnw,
      hu.size_eq, hfoot, hlen, true_or, or_true]
    rfl
  case frame =>
    intro x hx
    simp only [hframe x hx, hap, hap', le_refl, and_self, true_or, or_true]
  case size => simp only [load_store_disjoint, load_store_word, hnw, hap, hap', true_or]
  case magic =>
    simp only [load_store_disjoint, load_store_word, magics_lt L, hap, hap', true_or, or_true]
  case old => simp only [load_store_disjoint, load_store_word, hzw, hap', true_or]
  case link => simp only [load_store_disjoint, load_store_word, hpw, h2, h3]

theorem memmove_down {lo hi dst src len : ℕ}
    (hc : Covered mp lo hi) (hlo : lo ≤ dst) (hlt : dst < src)
    (hhi : src + len ≤ hi) :
    Heap.memmove ⟨m, mp, st, en⟩ dst src len = some ⟨copyForward m dst src len, mp, st, en⟩ := by
  unfold Heap.memmove
  by_cases hz : len = 0
  · rw [if_pos (.inl hz), hz]
    rfl
  · have hacc : ∀ b, lo ≤ b → b + len ≤ hi → Heap.Accessible ⟨m, mp, st, en⟩ b len :=
      fun b hl hu i hi => hc (b + i) (by omega) (by omega)
    rw [if_neg (by omega), if_pos (by omega), Heap.memcpy,
      if_pos ⟨hacc dst hlo (by omega), hacc src (by omega) hhi⟩]

/-- The data survives the downward extension exactly when the fit is exact. -/
theorem growDown_spec (c : Caller) (v : ℕ) {p ps : ℕ}
    (hc : Covered mp p (a + sz)) (hmod : a + sz < L.modulus)
    (hroom : L.headBytes + L.footBytes ≤ sz) (ha : p + ps = a) (hlt : sz < n)
    (hle : n ≤ ps + sz) (hal : L.minSize ∣ n)
    (hp : BlockAt L m p ⟨ps, false⟩) (hu : BlockAt L m a ⟨sz, true⟩) :
    ∃ m', growDown L ⟨m, mp, st, en⟩ c a p (a + L.headBytes) n v = some ⟨m', mp, st, en⟩ ∧
      (∀ x, x < p ∨ a + sz ≤ x → m' x = m x) ∧ load m' p L.wordBytes = n ∧
      (n ≤ ps → load m' a L.wordBytes = 0) ∧
      (n < ps + sz → load m' (a + sz - L.footBytes + L.wordBytes) L.wordBytes = a) ∧
      (n = ps + sz → BlockAt L m' p ⟨n, true⟩ ∧ ∀ i, i < sz - L.headBytes - L.footBytes →
          m' (p + L.headBytes + i) = m (a + L.headBytes + i)) := by
  have hL := layout_core L
  have hH := magic_in_head L
  obtain ⟨f, hf⟩ : ∃ f, f + L.footBytes = p + n := ⟨p + n - L.footBytes, by omega⟩
  obtain ⟨m₁, heq, hframe, hsize, hmagic, hold, hlink⟩ :=
    growDownHeads_spec st en c v hc hmod hroom ha hlt hle hal hf hp hu
  have hmove := memmove_down (m := m₁) st en hc (show p ≤ p + L.headBytes by omega)
    (show p + L.headBytes < a + L.headBytes by omega)
    (show a + L.headBytes + (sz - L.footBytes - L.headBytes) ≤ a + sz by omega)
  have hcopy : ∀ x, x < p + L.headBytes ∨ p + sz ≤ x + L.footBytes →
      copyForward m₁ (p + L.headBytes) (a + L.headBytes) (sz - L.footBytes - L.headBytes) x =
        m₁ x := fun x hx => copyForward_outside (by omega)
  have hkeep : ∀ b, b + L.wordBytes ≤ p + L.headBytes ∨ p + sz ≤ b + L.footBytes →
      load (copyForward m₁ (p + L.headBytes) (a + L.headBytes)
        (sz - L.footBytes - L.headBytes)) b L.wordBytes = load m₁ b L.wordBytes :=
    fun b hb => load_congr fun x hl hx => hcopy x (by omega)
  refine ⟨copyForward m₁ (p + L.headBytes) (a + L.headBytes) (sz - L.footBytes - L.headBytes),
    ?_, fun x hx => ?_, ?_, fun hn => ?_, fun hn => ?_, fun hn => ⟨?_, ?_⟩⟩
  · simp only [growDown, heq, bind_eq_bind, bind_some]
    exact hmove
  · rw [hcopy x (by omega), hframe x (by omega)]
  · rw [hkeep p (by omega), hsize]
  · rw [hkeep a (by omega), hold]
  · rw [hkeep _ (by omega)]
    refine (load_congr fun x hl hx => hframe x ?_).trans hu.foot_head
    obtain ⟨d, hd⟩ : ∃ d, n + d = ps + sz := ⟨ps + sz - n, by omega⟩
    have hdal : L.minSize ∣ d := (Nat.dvd_add_right hal).mp (hd ▸ Nat.dvd_add hp.aligned hu.aligned)
    have hdm := le_of_dvd (by omega) hdal
    omega
  · have hfp : p + n - L.footBytes = f := by omega
    refine ⟨lt_of_le_of_lt (zero_le _) hlt, hal, ?_, ?_, ?_, ?_⟩
    · exact (hkeep p (by omega)).trans hsize
    · exact (hkeep _ (by omega)).trans hmagic
    · simp only [hfp]
      rw [hkeep f (by omega), show f = a + sz - L.footBytes by omega]
      exact (load_congr fun x hl hx => hframe x (by omega)).trans hu.foot_magic
    · simp only [hfp]
      exact (hkeep _ (by omega)).trans hlink
  · intro i hi
    rw [copyForward_inside (.inl (by omega)) (by omega), hframe _ (by omega)]

theorem relabel_spec (c : Caller) (v : ℕ) (hc : Covered mp a (a + sz))
    (hroom : L.headBytes + L.footBytes ≤ sz) (hb : BlockAt L m a ⟨sz, true⟩) :
    ∃ m', relabel L ⟨m, mp, st, en⟩ c a v = some ⟨m', mp, st, en⟩ ∧
      (∀ x, x < a ∨ a + L.headBytes ≤ x → m' x = m x) ∧ BlockAt L m' a ⟨sz, true⟩ := by
  obtain ⟨f, hf, hf', hap⟩ := usedWords a hroom
  have acc := access_covered hc st en
  obtain ⟨hpos, hal, hsize, hmagic, hfm, hfh⟩ := hb
  simp only [hf'] at hfm hfh
  simp only [apart_cons, forall_mem_cons, add_zero] at hap
  refine ⟨?mem, ?eq, ?frame, ?block⟩
  case eq =>
    simp only [relabel, setFile, setLine, setValidSize, bind_eq_bind]
    simp only [acc, hap, bind_some]
    rfl
  case frame =>
    intro x hx
    simp only [store_frame hx, hap]
  case block =>
    refine ⟨hpos, hal, ?_, ?_, ?_, ?_⟩ <;>
      simp only [hf', load_store_disjoint, hap, true_or, or_true, hsize, hmagic, hfm, hfh]

end KernelHeapGrow
