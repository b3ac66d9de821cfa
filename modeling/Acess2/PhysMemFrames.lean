import Acess2.PhysMemModel

/-! What the operations of the physical memory manager do to single frames: the effect of each
step of `mm_phys.c` on the bits, the counts and the limits, and the outcomes of `MM_AllocPhys`. -/
namespace PhysMemFrames

open Function PhysMemModel WordBitmaps Nat

variable {s t : PhysMem} {l m n : ℕ}

@[simp] theorem setReference_keeps : (setReference s n).used = s.used ∧
    (setReference s n).superBitmap = s.superBitmap ∧ (setReference s n).counted = s.counted ∧
    (setReference s n).pageCount = s.pageCount ∧
    (setReference s n).lastPossibleFree = s.lastPossibleFree ∧
    (setReference s n).physAlloc = s.physAlloc := by
  unfold setReference
  split <;> exact ⟨rfl, rfl, rfl, rfl, rfl, rfl⟩

theorem setReference_pageReferences : (setReference s n).pageReferences m =
      if s.counted n ∧ m = n then 1 else s.pageReferences m := by
  unfold setReference
  by_cases hcounted : s.counted n = true
  · simp [hcounted, update_apply]
  · simp [hcounted]

@[simp] theorem setUsed_used : (setUsed s n).used m = (s.used m || decide (m = n)) :=
  bit_setBit (by decide) m n

@[simp] theorem setUsed_keeps : (setUsed s n).superBitmap = s.superBitmap ∧
    (setUsed s n).counted = s.counted ∧ (setUsed s n).pageCount = s.pageCount ∧
    (setUsed s n).pageReferences = s.pageReferences ∧
    (setUsed s n).lastPossibleFree = s.lastPossibleFree := ⟨rfl, rfl, rfl, rfl, rfl⟩

@[simp] theorem markBlock_keeps : (markBlock s n).used = s.used ∧
    (markBlock s n).counted = s.counted ∧ (markBlock s n).pageCount = s.pageCount ∧
    (markBlock s n).pageReferences = s.pageReferences ∧
    (markBlock s n).lastPossibleFree = s.lastPossibleFree ∧
    (markBlock s n).physAlloc = s.physAlloc := by
  unfold markBlock
  split <;> exact ⟨rfl, rfl, rfl, rfl, rfl, rfl⟩

@[simp] theorem freeFrame_used : (freeFrame s n).used m = (s.used m && !decide (m = n)) := by
  unfold freeFrame
  dsimp only
  split <;> exact bit_clearBit (by decide) m n

@[simp] theorem freeFrame_keeps : (freeFrame s n).counted = s.counted ∧
    (freeFrame s n).pageCount = s.pageCount ∧ (freeFrame s n).pageReferences = s.pageReferences ∧
    (freeFrame s n).lastPossibleFree = s.lastPossibleFree := by
  unfold freeFrame
  dsimp only
  split <;> exact ⟨rfl, rfl, rfl, rfl⟩

def Cleared (b b' : Bitmap 32) (a c : ℕ) : Prop :=
  ∀ m, bit b' m = (bit b m && !decide (a ≤ m ∧ m < c))

theorem Cleared.refl (b : Bitmap 32) (a : ℕ) : Cleared b b a a := by
  intro m
  have hempty : ¬ (a ≤ m ∧ m < a) := by omega
  simp [hempty]

theorem Cleared.trans {b b' b'' : Bitmap 32} {a c d : ℕ} (hac : a ≤ c) (hcd : c ≤ d)
    (h : Cleared b b' a c) (h' : Cleared b' b'' c d) : Cleared b b'' a d := by
  intro m
  rw [h' m, h m, Bool.and_assoc, ← Bool.not_or, ← Bool.decide_or]
  congr 3
  apply propext
  constructor <;> omega

theorem cleared_clearBit (b : Bitmap 32) (a : ℕ) : Cleared b (clearBit b a) a (a + 1) := by
  intro m
  rw [bit_clearBit (by decide)]
  congr 3
  apply propext
  constructor <;> omega

section

variable (b : Bitmap 32) (a c : ℕ)
include b a c

theorem cleared_fill (ha : a % 32 = 0) : Cleared b (fill b (a / 32) c 0) a (a + 32 * c) := by
  intro m
  rw [bit_fill]
  by_cases hm : a ≤ m ∧ m < a + 32 * c
  · rw [if_pos (by omega)]
    simp [hm]
  · rw [if_neg (by omega)]
    simp [hm]

theorem clearTail_cleared : Cleared b (clearTail b a c) a (a + c) := by
  induction c generalizing b a with
  | zero => exact Cleared.refl b a
  | succ c ih =>
    have htail := ih (clearBit b a) (a + 1)
    rw [add_assoc, add_comm 1 c] at htail
    exact (cleared_clearBit b a).trans (by omega) (by omega) htail

theorem clearHead_spec : ∃ b' a' c', clearHead b a c = (b', a', c') ∧ a ≤ a' ∧ a' + c' = a + c ∧
      (a' % 32 = 0 ∨ c' = 0) ∧ Cleared b b' a a' := by
  induction c generalizing b a with
  | zero => exact ⟨b, a, 0, rfl, le_rfl, rfl, .inr rfl, Cleared.refl b a⟩
  | succ c ih =>
    by_cases ha : a % 32 = 0
    · exact ⟨b, a, c + 1, by rw [clearHead, if_pos ha], le_rfl, rfl, .inl ha, Cleared.refl b a⟩
    · obtain ⟨b', a', c', heq, hle, hsum, hstop, hcleared⟩ := ih (clearBit b a) (a + 1)
      refine ⟨b', a', c', by rw [clearHead, if_neg ha, heq], by omega, by omega, hstop, ?_⟩
      exact (cleared_clearBit b a).trans (by omega) hle hcleared

theorem clearPages_cleared : Cleared b (clearPages b a c) a (a + c) := by
  obtain ⟨b', a', c', heq, hle, hsum, hstop, hhead⟩ := clearHead_spec b a c
  unfold clearPages
  rw [heq]
  dsimp only
  rcases hstop with hword | rfl
  · have hwhole : c' - c' % 32 = 32 * (c' / 32) := by omega
    have htail := clearTail_cleared (fill b' (a' / 32) (c' / 32) 0) (a' + 32 * (c' / 32)) (c' % 32)
    rw [hwhole]
    rw [show a' + 32 * (c' / 32) + c' % 32 = a + c by omega] at htail
    exact hhead.trans hle (by omega)
      ((cleared_fill b' a' (c' / 32) hword).trans (by omega) (by omega) htail)
  · have hfill : fill b' (a' / 32) (0 / 32) 0 = b' := by
      funext i
      rw [fill, if_neg (by omega)]
    rw [hfill, show a + c = a' by omega]
    exact hhead

end

def PMemMapEnt.Frees (ent : PMemMapEnt) (n : ℕ) : Prop :=
  ent.type = .free ∧ ent.start / pageSize ≤ n ∧ n < ent.start / pageSize + ent.length / pageSize ∧
    n < 2 ^ 20

instance (ent : PMemMapEnt) (n : ℕ) : Decidable (PMemMapEnt.Frees ent n) := by
  unfold PMemMapEnt.Frees
  infer_instance

theorem installEnt_bit (b : Bitmap 32) (a : BitVec 64) (ent : PMemMapEnt) (m : ℕ) :
    bit (installEnt b a ent).1 m = (bit b m && !decide (PMemMapEnt.Frees ent m)) := by
  obtain ⟨start, length, type⟩ := ent
  have hfrees : PMemMapEnt.Frees ⟨start, length, type⟩ m ↔ type = .free ∧
    start / pageSize ≤ m ∧ m < start / pageSize + length / pageSize ∧ m < 2 ^ 20 := Iff.rfl
  cases type with
  | free =>
    by_cases hhigh : start / pageSize > 2 ^ 20
    · have hno : ¬ PMemMapEnt.Frees ⟨start, length, .free⟩ m := by
        intro h
        obtain ⟨-, hlow, -, htop⟩ := hfrees.mp h
        omega
      simp only [installEnt, if_pos hhigh]
      simp [hno]
    · simp only [installEnt, if_neg hhigh]
      rw [clearPages_cleared, decide_eq_decide.mpr]
      rw [hfrees]
      split <;> constructor <;> simp only [true_and] <;> omega
  | used | reserved | nvram | unmapped => simp [installEnt, hfrees]

theorem installBitmap_bit (ents : List PMemMapEnt) (b : Bitmap 32) (m : ℕ) :
    bit (installBitmap ents b).1 m =
      (bit b m && !decide (∃ ent ∈ ents, PMemMapEnt.Frees ent m)) := by
  unfold installBitmap
  generalize (0 : BitVec 64) = a
  induction ents generalizing b a with
  | nil => simp
  | cons ent ents ih =>
    rw [List.foldl_cons, ih, installEnt_bit, Bool.and_assoc, ← Bool.not_or, ← Bool.decide_or]
    simp

theorem fillSuper_bit (b : Bitmap 32) (words i : ℕ) :
    bit (fillSuper b words) i = decide (i < words ∧ b i = BitVec.allOnes 32) := by
  induction words with
  | zero =>
    rw [show fillSuper b 0 = fun _ => 0 from rfl, bit_zero]
    simp
  | succ words ih =>
    have hstep : fillSuper b (words + 1) =
        if b words + 1 = 0 then setBit (fillSuper b words) words else fillSuper b words := by
      simp [fillSuper, List.range_succ]
    have hfull : b words + 1 = 0 ↔ b words = BitVec.allOnes 32 := add_eq_zero_iff_eq_neg
    have hset : bit (fillSuper b (words + 1)) i =
        (bit (fillSuper b words) i || decide (b words = BitVec.allOnes 32 ∧ i = words)) := by
      simp only [hstep, hfull]
      split
      case isTrue hones => simp [hones, bit_setBit]
      case isFalse hones => rw [decide_eq_false (hones ·.1), Bool.or_false]
    rw [hset, ih, ← Bool.decide_or, decide_eq_decide, Nat.lt_succ_iff_lt_or_eq, or_and_right,
      and_comm (b := i = words)]
    exact or_congr_right (and_congr_right fun h => by rw [h])

variable (table : Bool) (ents : List PMemMapEnt)

theorem mmInstall_used (n : ℕ) : (mmInstall table ents).used n =
      (decide (n / 32 < pageCountOf ents / 32) &&
        !decide (∃ ent ∈ ents, PMemMapEnt.Frees ent n)) := by
  show bit (installBitmap ents _).1 n = _
  rw [installBitmap_bit, bit_fill, bit_zero]
  by_cases hlt : n / 32 < pageCountOf ents / 32
  · have hmod : n % 32 < 32 := mod_lt n (by decide)
    rw [if_pos (by omega), BitVec.getLsbD_allOnes, decide_eq_true hmod, decide_eq_true hlt]
  · rw [if_neg (by omega), decide_eq_false hlt, Bool.false_and]

/-- What `MM_AllocPhys` does with the frame it has found, the scan having left `l` as the last
possible free frame. -/
def taken (s : PhysMem) (l n : ℕ) : PhysMem :=
  markBlock (setUsed (setReference { s with lastPossibleFree := l } n) n) n

@[simp] theorem taken_used : (taken s l n).used m = (s.used m || decide (m = n)) := by
  rw [taken, markBlock_keeps.1, setUsed_used, setReference_keeps.1]
  rfl

@[simp] theorem taken_keeps : (taken s l n).counted = s.counted ∧
    (taken s l n).pageCount = s.pageCount ∧ (taken s l n).lastPossibleFree = l := by
  simp [taken]
  rfl

theorem taken_pageReferences : (taken s l n).pageReferences m =
      if s.counted n ∧ m = n then 1 else s.pageReferences m := by
  simp only [taken, markBlock_keeps, setUsed_keeps]
  exact setReference_pageReferences

theorem scanRange_ge (last rounds indx : ℕ) : indx ≤ scanRange s last rounds indx := by
  induction rounds generalizing indx with
  | zero => exact le_rfl
  | succ rounds ih =>
    unfold scanRange
    split_ifs
    · exact le_trans (by omega) (ih (indx + 1024))
    · exact le_trans (by omega) (ih (indx + 32))
    · exact le_trans (by omega) (ih (indx + 1))
    · exact le_rfl
    · exact le_rfl

theorem scanRange_free {last rounds indx : ℕ} (hrounds : last ≤ indx + rounds)
    (hfound : scanRange s last rounds indx < last) :
    s.used (scanRange s last rounds indx) = false := by
  induction rounds generalizing indx with
  | zero =>
    simp only [scanRange] at hfound
    omega
  | succ rounds ih =>
    unfold scanRange at hfound ⊢
    split_ifs at hfound ⊢ with hlt hsuper hword hused
    · exact ih (by omega) hfound
    · exact ih (by omega) hfound
    · exact ih (by omega) hfound
    · exact Bool.not_eq_true _ ▸ hused
    · exact absurd hfound hlt

theorem classPage_le : ∀ i ≤ 5, classPage i ≤ 2 ^ 20 := by decide

theorem classPage_ge : ∀ i ≤ 4, 1 ≤ i → 16 ≤ classPage i := by decide

theorem scanClasses_spec (i l : ℕ) (hi : i ≤ 5) : (scanClasses s i l).1 ≤ l ∧
    ∀ n, (scanClasses s i l).2 = some n → s.used n = false ∧ 16 ≤ n ∧ n < l ∧ n < 2 ^ 20 := by
  induction i generalizing l with
  | zero => exact ⟨le_rfl, fun n hn => by cases hn⟩
  | succ i ih =>
    unfold scanClasses
    dsimp only
    by_cases hfirst : classPage i > l
    · rw [if_pos hfirst]
      exact ih l (by omega)
    rw [if_neg hfirst]
    generalize hlast : (if classPage (i + 1) - 1 > l then l else classPage (i + 1) - 1) = last
    have hle : last ≤ l ∧ last < 2 ^ 20 := by
      have htop := classPage_le (i + 1) hi
      split at hlast <;> omega
    split
    case isTrue hfound =>
      refine ⟨le_rfl, ?_⟩
      intro n hn
      split at hn
      · cases hn
      · cases hn
        have hsixteen := classPage_ge i (by omega) (by omega)
        have hge := scanRange_ge (s := s) last (last - classPage i) (classPage i)
        exact ⟨scanRange_free (by omega) hfound, by omega, by omega, by omega⟩
    case isFalse hfound =>
      obtain ⟨hl, hn⟩ := ih (classPage i) (by omega)
      refine ⟨by omega, ?_⟩
      intro n heq
      obtain ⟨hfree, hlow, hlt, htop⟩ := hn n heq
      exact ⟨hfree, hlow, by omega, htop⟩

theorem mmAllocPhys_cases (s : PhysMem) : ∃ l ≤ s.lastPossibleFree,
      mmAllocPhys s = some (0, { s with lastPossibleFree := l }) ∨
      ∃ n, s.used n = false ∧ 16 ≤ n ∧ n < s.pageCount ∧
        mmAllocPhys s = some (n * pageSize, taken s l n) := by
  obtain ⟨hle, hfound⟩ := scanClasses_spec (s := s) 5 s.lastPossibleFree le_rfl
  refine ⟨(scanClasses s 5 s.lastPossibleFree).1, hle, ?_⟩
  unfold mmAllocPhys
  cases hscan : (scanClasses s 5 s.lastPossibleFree).2 with
  | none =>
    left
    simp [hscan]
  | some n =>
    obtain ⟨hfree, hlow, -, htop⟩ := hfound n hscan
    have hpanic : ¬ n > 0xFFFFF := by omega
    by_cases hram : n ≥ s.pageCount
    · left
      simp [hscan, hpanic, hram]
    · right
      refine ⟨n, hfree, hlow, by omega, ?_⟩
      simp only [hscan, if_neg hpanic, if_neg hram]
      rfl

/-- `MM_RefPhys` once the count of the frame is there -/
def referenced (s : PhysMem) (n : ℕ) : PhysMem :=
  let s := { s with
    pageReferences := update s.pageReferences n (s.pageReferences n + 1) }
  markBlock (if s.used n then s else setUsed s n) n

variable {pAddr : ℕ}

theorem mmRefPhys_eq (hn : pAddr / pageSize < s.pageCount) : mmRefPhys s pAddr =
      (needReference s (pAddr / pageSize)).map fun t => referenced t (pAddr / pageSize) := by
  unfold mmRefPhys
  rw [if_neg (by omega)]
  rfl

theorem mmRefPhys_outside (hn : pAddr / pageSize ≥ s.pageCount) : mmRefPhys s pAddr = some s := by
  unfold mmRefPhys
  rw [if_pos hn]

@[simp] theorem referenced_used : (referenced s n).used m = (s.used m || decide (m = n)) := by
  simp only [referenced, markBlock_keeps]
  split
  case isTrue hused =>
    by_cases hm : m = n
    · subst hm
      rw [decide_eq_true rfl, Bool.or_true]
      exact hused
    · rw [decide_eq_false hm, Bool.or_false]
      rfl
  case isFalse => exact setUsed_used

@[simp] theorem referenced_keeps : (referenced s n).counted = s.counted ∧
    (referenced s n).pageCount = s.pageCount ∧
    (referenced s n).lastPossibleFree = s.lastPossibleFree := by
  simp only [referenced, markBlock_keeps]
  split <;> exact ⟨rfl, rfl, rfl⟩

theorem referenced_pageReferences : (referenced s n).pageReferences m =
      if m = n then s.pageReferences n + 1 else s.pageReferences m := by
  simp only [referenced, markBlock_keeps, ← update_apply]
  split <;> rfl

def LastReference (s : PhysMem) (n : ℕ) : Prop := s.counted n = false ∨ s.pageReferences n = 1

instance : Decidable (LastReference s n) := by
  unfold LastReference
  infer_instance

/-- `MM_DerefPhys` up to the decision to free the frame -/
def dropped (s : PhysMem) (n : ℕ) : PhysMem :=
  { s with
    lastPossibleFree := max s.lastPossibleFree n
    pageReferences :=
      if s.counted n then update s.pageReferences n (s.pageReferences n - 1)
      else s.pageReferences }

@[simp] theorem dropped_used : (dropped s n).used m = s.used m := rfl
@[simp] theorem dropped_counted : (dropped s n).counted m = s.counted m := rfl
@[simp] theorem dropped_pageCount : (dropped s n).pageCount = s.pageCount := rfl

theorem dropped_pageReferences (hcounted : s.counted n = true) : (dropped s n).pageReferences m =
      if m = n then s.pageReferences n - 1 else s.pageReferences m := by
  unfold dropped
  dsimp only
  rw [if_pos hcounted, update_apply]

theorem dropped_uncounted (hcounted : s.counted n = false) :
    (dropped s n).pageReferences = s.pageReferences := by
  unfold dropped
  rw [if_neg (by simp [hcounted])]

theorem mmDerefPhys_ignored
    (h : pAddr / pageSize ≥ s.pageCount ∨ s.used (pAddr / pageSize) = false) :
    mmDerefPhys s pAddr = s := by
  unfold mmDerefPhys
  by_cases hout : pAddr / pageSize ≥ s.pageCount
  · rw [if_pos hout]
  · rw [if_neg hout, if_pos (by simp [h.resolve_left hout])]

theorem mmDerefPhys_eq (hn : pAddr / pageSize < s.pageCount)
    (hused : s.used (pAddr / pageSize) = true) :
    mmDerefPhys s pAddr = if LastReference s (pAddr / pageSize) then
        freeFrame (dropped s (pAddr / pageSize)) (pAddr / pageSize)
      else dropped s (pAddr / pageSize) := by
  unfold mmDerefPhys
  generalize pAddr / pageSize = n at hn hused ⊢
  rw [if_neg (by omega), if_neg (by simp [hused])]
  have hlimit : (if s.lastPossibleFree < n then { s with lastPossibleFree := n } else s) =
      { s with lastPossibleFree := max s.lastPossibleFree n } := by
    split
    case isTrue hlt => rw [max_eq_right (by omega)]
    case isFalse hlt => rw [max_eq_left (by omega)]
  rw [hlimit]
  cases hcounted : s.counted n with
  | false =>
    have hlast : LastReference s n := .inl hcounted
    have hdropped : dropped s n = { s with lastPossibleFree := max s.lastPossibleFree n } := by
      unfold dropped
      rw [if_neg (by simp [hcounted])]
    rw [if_pos hlast, hdropped, if_pos]
    exact Bool.eq_false_iff.mp hcounted
  | true =>
    have hlast : LastReference s n ↔ s.pageReferences n - 1 = 0 := by
      unfold LastReference
      rw [hcounted, sub_eq_zero]
      simp
    have hdropped : dropped s n = { s with
          lastPossibleFree := max s.lastPossibleFree n
          pageReferences := update s.pageReferences n (s.pageReferences n - 1) } := by
      unfold dropped
      rw [if_pos hcounted]
    rw [if_neg (by simpa [PhysMem.counted] using hcounted), hdropped]
    simp only [hlast, update_self]

end PhysMemFrames
