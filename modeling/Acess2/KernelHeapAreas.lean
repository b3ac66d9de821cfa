import Acess2.KernelHeapBlocks

/-! # Data areas

The part of a used block that belongs to its owner. Live allocations are identified with
these areas; the lemmas say where they lie and which changes of memory leave them alone. -/
namespace KernelHeapAreas

open ByteMemory KernelHeapModel KernelHeapBlocks

/-- The data areas (start, length) of the used blocks, from address `a` upwards. -/
def dataAreas (L : Layout) : ℕ → List Block → List (ℕ × ℕ)
  | _, [] => []
  | a, b :: bs =>
    if b.used then
      (a + L.headBytes, b.size - L.headBytes - L.footBytes) :: dataAreas L (a + b.size) bs
    else dataAreas L (a + b.size) bs

theorem dataAreas_append (L : Layout) (a : ℕ) (xs ys : List Block) :
    dataAreas L a (xs ++ ys) = dataAreas L a xs ++ dataAreas L (a + span xs) ys := by
  induction xs generalizing a with
  | nil => simp [dataAreas]
  | cons b xs ih =>
    simp only [List.cons_append, dataAreas, ih, span_cons, ← Nat.add_assoc]
    split <;> rfl

variable {L : Layout} {s : Heap} {bs pre post : List Block} {sz k : ℕ}

def SameOn (rs : List (ℕ × ℕ)) (m m' : Memory) : Prop :=
  ∀ r ∈ rs, ∀ x, r.1 ≤ x → x < r.1 + r.2 → m' x = m x

variable {m m' : Memory} {rs : List (ℕ × ℕ)} {a : ℕ}

theorem SameOn.perm {rs' : List (ℕ × ℕ)} (h : SameOn rs m m')
    (hp : rs.Perm rs') : SameOn rs' m m' := fun r hr => h r (hp.mem_iff.mpr hr)

theorem SameOn.trans {m'' : Memory} (h : SameOn rs m m')
    (h' : SameOn rs m' m'') : SameOn rs m m'' :=
  fun r hr x hl hu => (h' r hr x hl hu).trans (h r hr x hl hu)

theorem areas_below {xs : List Block}
    (hroom : ∀ b ∈ xs, b.used = true → L.headBytes + L.footBytes ≤ b.size) :
    ∀ r ∈ dataAreas L a xs, a ≤ r.1 ∧ r.1 + r.2 ≤ a + span xs := by
  induction xs generalizing a with
  | nil => simp [dataAreas]
  | cons b xs ih =>
    intro r hr
    have hrest := ih (a := a + b.size) fun c hc => hroom c (List.mem_cons_of_mem _ hc)
    rw [span_cons]
    unfold dataAreas at hr
    split at hr
    next hu =>
      have hb := hroom b List.mem_cons_self hu
      rcases List.mem_cons.mp hr with rfl | hr
      · omega
      · have := hrest r hr
        omega
    next =>
      have := hrest r hr
      omega

theorem sameOn_outside {mid : List Block} (h : WellFormed L s (pre ++ (mid ++ post)))
    (hframe : ∀ x, x < s.heapStart + span pre ∨ s.heapStart + span pre + span mid ≤ x →
      m' x = s.mem x) :
    SameOn (dataAreas L s.heapStart pre ++
      dataAreas L (s.heapStart + span pre + span mid) post) s.mem m' := by
  intro r hr x hl hu
  apply hframe
  rcases List.mem_append.mp hr with hr | hr
  · have := areas_below (fun b hb => h.room b (List.mem_append_left _ hb)) r hr
    omega
  · have := areas_below (fun b hb => h.room b
      (List.mem_append_right _ (List.mem_append_right _ hb))) r hr
    omega

theorem sameOn_of_frame (h : WellFormed L s (pre ++ ⟨k, false⟩ :: post))
    (hframe : ∀ x, x < s.heapStart + span pre ∨ s.heapStart + span pre + k ≤ x →
      m' x = s.mem x) : SameOn (dataAreas L s.heapStart (pre ++ ⟨k, false⟩ :: post)) s.mem m' := by
  have h' : WellFormed L s (pre ++ ([⟨k, false⟩] ++ post)) := h
  have hout := sameOn_outside h' (by simpa using hframe)
  simpa [dataAreas_append, dataAreas] using hout

theorem areas_used (a : ℕ) : (dataAreas L a (pre ++ ⟨sz, true⟩ :: post)).Perm
      ((a + span pre + L.headBytes, sz - L.headBytes - L.footBytes) ::
        dataAreas L a (pre ++ ⟨sz, false⟩ :: post)) := by
  simp only [dataAreas_append, dataAreas, if_true, Bool.false_eq_true, if_false]
  exact List.perm_middle

theorem areas_sorted (hroom : ∀ b ∈ bs, b.used = true → L.headBytes + L.footBytes ≤ b.size) :
    (dataAreas L a bs).Pairwise fun x y => x.1 + x.2 < y.1 := by
  induction bs generalizing a with
  | nil => exact List.Pairwise.nil
  | cons b bs ih =>
    have hL := layout_core L
    have hrest : ∀ c ∈ bs, c.used = true → L.headBytes + L.footBytes ≤ c.size :=
      fun c hc => hroom c (List.mem_cons_of_mem _ hc)
    unfold dataAreas
    split
    next hu =>
      have hb := hroom b List.mem_cons_self hu
      refine List.pairwise_cons.mpr ⟨fun y hy => ?_, ih hrest⟩
      have hy := areas_below hrest y hy
      omega
    next => exact ih hrest

theorem mem_areas {r : ℕ × ℕ} (h : r ∈ dataAreas L a bs) :
    ∃ pre sz post, bs = pre ++ ⟨sz, true⟩ :: post ∧ r.1 = a + span pre + L.headBytes ∧
      r.2 = sz - L.headBytes - L.footBytes := by
  induction bs generalizing a with
  | nil => simp [dataAreas] at h
  | cons b bs ih =>
    have later : r ∈ dataAreas L (a + b.size) bs → ∃ pre sz post,
        b :: bs = pre ++ ⟨sz, true⟩ :: post ∧ r.1 = a + span pre + L.headBytes ∧
        r.2 = sz - L.headBytes - L.footBytes := by
      intro h
      obtain ⟨pre, sz, post, rfl, h1, h2⟩ := ih h
      exact ⟨b :: pre, sz, post, rfl, by rw [h1, span_cons, Nat.add_assoc a], h2⟩
    unfold dataAreas at h
    split at h
    next hu =>
      rcases List.mem_cons.mp h with rfl | h
      · obtain ⟨size, used⟩ := b
        obtain rfl : used = true := hu
        exact ⟨[], size, bs, rfl, by simp, rfl⟩
      · exact later h
    next => exact later h

theorem areas_apart (h : WellFormed L s bs) : Apart (dataAreas L s.heapStart bs) :=
  (areas_sorted h.room).imp fun hxy => Nat.le_of_lt hxy

theorem areas_nodup (h : WellFormed L s bs) : ((dataAreas L s.heapStart bs).map Prod.fst).Nodup :=
  List.pairwise_map.mpr ((areas_sorted h.room).imp fun hxy => by omega)

end KernelHeapAreas
