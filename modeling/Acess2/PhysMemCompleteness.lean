import Acess2.PhysMemFrames
import Acess2.GuardedRuns

/-! Completeness of `MM_AllocPhys`: which free frames its scan can see.
The scan skips by whole words and whole super words from unaligned starts, leaves out the last
frame of each class, and `MM_DerefPhys` clears a super bit only with the last frame of a word. -/
namespace PhysMemCompleteness

open GuardedRuns List Option PhysMemFrames PhysMemModel WordBitmaps Bool

/-- A bit of `gaSuperBitmap` is set only if all frames of its word are used. -/
def SuperSound (s : PhysMem) : Prop := ∀ n, bit s.superBitmap (n / 32) = true → s.used n = true

/-- The scan from `first` jumps over `f`: all super words, or words, up to that of `f` are full, and
`f` lies lower in its own than the start did. -/
def Skipped (s : PhysMem) (first f : ℕ) : Prop :=
  (first / 1024 < f / 1024 ∧ f % 1024 < first % 1024 ∧
    ∀ b, first / 1024 ≤ b → b < f / 1024 → s.fullSuper b) ∨
  (first / 32 < f / 32 ∧ f % 32 < first % 32 ∧ ∀ w, first / 32 ≤ w → w < f / 32 → s.fullWord w)

/-- A free frame that the scan from `first` to `last` does not jump over -/
structure Seen (s : PhysMem) (first last f : ℕ) : Prop where
  first_le : first ≤ f
  lt_last : f < last
  free : s.used f = false
  reached : ¬ Skipped s first f

variable {s t : PhysMem} {first last f n : ℕ} {i w : ℕ}

theorem scanRange_succ {rounds : ℕ} (hi : i < last) : scanRange s last (rounds + 1) i =
      if s.fullSuper (i / 1024) then scanRange s last rounds (i + 1024)
      else if s.fullWord (i / 32) then scanRange s last rounds (i + 32)
      else if s.used i then scanRange s last rounds (i + 1)
      else i := by
  rw [scanRange, if_pos hi]

theorem scanRange_past (rounds : ℕ) (hi : last ≤ i) : scanRange s last rounds i = i := by
  cases rounds with
  | zero => rfl
  | succ rounds => rw [scanRange, if_neg (by omega)]

theorem used_of_fullSuper (hsound : SuperSound s) {b : ℕ} (hfull : s.fullSuper b)
    (hn : n / 1024 = b) : s.used n = true := by
  apply hsound n
  apply (full_iff (by decide) b).mp hfull (n / 32)
  omega

theorem used_of_fullWord (hfull : s.fullWord w) (hn : n / 32 = w) : s.used n = true :=
  (full_iff (by decide) w).mp hfull n hn

theorem scanRange_ne_skipped (hskip : Skipped s first f) (rounds : ℕ) :
    scanRange s last rounds first ≠ f := by
  have hbeyond : ∀ rounds i, f < i → scanRange s last rounds i ≠ f := by
    intro rounds i hi
    have hge := scanRange_ge (s := s) last rounds i
    omega
  -- the scan stays at indices of which `f` is none
  have hwalk : ∀ stay : ℕ → Prop, ¬ stay f → (∀ rounds i, stay i → i ≤ f → i < last →
      ∃ j, stay j ∧ scanRange s last (rounds + 1) i = scanRange s last rounds j) →
      ∀ rounds i, stay i → scanRange s last rounds i ≠ f := by
    intro stay hf hgo rounds
    induction rounds with
    | zero =>
      rintro i hi rfl
      exact hf hi
    | succ rounds ih =>
      intro i hi
      by_cases hfi : f < i
      · exact hbeyond _ i hfi
      by_cases hlast : last ≤ i
      · rw [scanRange_past _ hlast]
        rintro rfl
        exact hf hi
      · obtain ⟨j, hj, heq⟩ := hgo rounds i hi (by omega) (by omega)
        exact heq ▸ ih j hj
  rcases hskip with ⟨hblock, hoff, hfull⟩ | ⟨hword, hoff, hfull⟩
  · refine hwalk (fun i => i % 1024 = first % 1024 ∧ first / 1024 ≤ i / 1024) (by omega) ?_ rounds
      first ⟨rfl, le_rfl⟩
    rintro rounds i ⟨hi, hle⟩ hif hlast
    rw [scanRange_succ hlast, if_pos (hfull (i / 1024) hle (by omega))]
    exact ⟨i + 1024, by omega, rfl⟩
  refine hwalk (fun i => i % 32 = first % 32 ∧ first / 32 ≤ i / 32) (by omega) ?_ rounds first
    ⟨rfl, le_rfl⟩
  rintro rounds i ⟨hi, hle⟩ hif hlast
  rw [scanRange_succ hlast]
  split
  · exact ⟨i + 1024, by omega, rfl⟩
  · rw [if_pos (hfull (i / 32) hle (by omega))]
    exact ⟨i + 32, by omega, rfl⟩

/-- Every free frame behind `i` was jumped over; a jump is from an aligned index, or goes on with
jumps. -/
structure Scanned (s : PhysMem) (first last i : ℕ) : Prop where
  first_le : first ≤ i
  behind : ∀ g, first ≤ g → g < i → g < last → s.used g = false → Skipped s first g
  word : i < last → s.fullWord (i / 32) → i % 32 = 0 ∨
    (i % 32 = first % 32 ∧ ∀ w, first / 32 ≤ w → w < i / 32 → s.fullWord w)
  super : i < last → s.fullSuper (i / 1024) → last ≤ 1024 ∨ i % 1024 = 0 ∨
    (i % 1024 = first % 1024 ∧ ∀ b, first / 1024 ≤ b → b < i / 1024 → s.fullSuper b)

theorem chain_succ {full : ℕ → Prop} {a : ℕ} (hfull : full n)
    (hchain : ∀ b, a ≤ b → b < n → full b) : ∀ b, a ≤ b → b < n + 1 → full b := by
  intro b hb hlt
  rcases Nat.lt_succ_iff_lt_or_eq.mp hlt with hlt | rfl
  · exact hchain b hb hlt
  · exact hfull

namespace Scanned

theorem start : Scanned s first last first := by
  refine ⟨le_rfl, fun g hge hlt => absurd hge (by omega), ?_, ?_⟩
  · intro _ _
    exact .inr ⟨rfl, fun w hge hlt => absurd hge (by omega)⟩
  · intro _ _
    exact .inr (.inr ⟨rfl, fun b hge hlt => absurd hge (by omega)⟩)

theorem jumpSuper (h : Scanned s first last i) (hsound : SuperSound s)
    (halign : first % 32 = 0 ∨ last ≤ 1024) (hi : i < last) (hfull : s.fullSuper (i / 1024)) :
    Scanned s first last (i + 1024) := by
  have hsuper := h.super hi hfull
  have hle := h.first_le
  refine ⟨by omega, ?_, ?_, ?_⟩
  · intro g hfirst hg hlast hfree
    by_cases hgi : g < i
    · exact h.behind g hfirst hgi hlast hfree
    by_cases hblock : g / 1024 = i / 1024
    · rw [used_of_fullSuper hsound hfull hblock] at hfree
      cases hfree
    rcases hsuper with hshort | haligned | ⟨hoff, hfulls⟩
    · omega
    · omega
    · have hnext : g / 1024 = i / 1024 + 1 := by omega
      refine .inl ⟨by omega, by omega, ?_⟩
      rw [hnext]
      exact chain_succ hfull hfulls
  · intro hlt _
    omega
  · intro hlt _
    rcases hsuper with hshort | haligned | ⟨hoff, hfulls⟩
    · exact .inl hshort
    · exact .inr (.inl (by omega))
    · refine .inr (.inr ⟨by omega, ?_⟩)
      rw [show (i + 1024) / 1024 = i / 1024 + 1 by omega]
      exact chain_succ hfull hfulls

theorem jumpWord (h : Scanned s first last i) (halign : first % 32 = 0 ∨ last ≤ 1024)
    (hi : i < last) (hsuper : ¬ s.fullSuper (i / 1024)) (hfull : s.fullWord (i / 32)) :
    Scanned s first last (i + 32) := by
  have hword := h.word hi hfull
  have hle := h.first_le
  refine ⟨by omega, ?_, ?_, ?_⟩
  · intro g hfirst hg hlast hfree
    by_cases hgi : g < i
    · exact h.behind g hfirst hgi hlast hfree
    by_cases hsame : g / 32 = i / 32
    · rw [used_of_fullWord hfull hsame] at hfree
      cases hfree
    rcases hword with haligned | ⟨hoff, hfulls⟩
    · omega
    · have hnext : g / 32 = i / 32 + 1 := by omega
      refine .inr ⟨by omega, by omega, ?_⟩
      rw [hnext]
      exact chain_succ hfull hfulls
  · intro hlt _
    rcases hword with haligned | ⟨hoff, hfulls⟩
    · exact .inl (by omega)
    · refine .inr ⟨by omega, ?_⟩
      rw [show (i + 32) / 32 = i / 32 + 1 by omega]
      exact chain_succ hfull hfulls
  · intro hlt hnew
    by_cases hsame : (i + 32) / 1024 = i / 1024
    · rw [hsame] at hnew
      exact absurd hnew hsuper
    · omega

theorem next (h : Scanned s first last i) (hsuper : ¬ s.fullSuper (i / 1024))
    (hword : ¬ s.fullWord (i / 32)) (hused : s.used i = true) : Scanned s first last (i + 1) := by
  have hle := h.first_le
  refine ⟨by omega, ?_, ?_, ?_⟩
  · intro g hfirst hg hlast hfree
    rcases Nat.lt_succ_iff_lt_or_eq.mp hg with hgi | rfl
    · exact h.behind g hfirst hgi hlast hfree
    · cases hused.symm.trans hfree
  · intro _ hnew
    by_cases hsame : (i + 1) / 32 = i / 32
    · rw [hsame] at hnew
      exact absurd hnew hword
    · exact .inl (by omega)
  · intro _ hnew
    by_cases hsame : (i + 1) / 1024 = i / 1024
    · rw [hsame] at hnew
      exact absurd hnew hsuper
    · exact .inr (.inl (by omega))

theorem missed (hsound : SuperSound s) (halign : first % 32 = 0 ∨ last ≤ 1024) {rounds : ℕ}
    (h : Scanned s first last i) (hrounds : last ≤ i + rounds)
    (hend : last ≤ scanRange s last rounds i) :
    ∀ g, first ≤ g → g < last → s.used g = false → Skipped s first g := by
  induction rounds generalizing i with
  | zero =>
    intro g hfirst hg
    exact h.behind g hfirst (by omega) hg
  | succ rounds ih =>
    by_cases hi : i < last
    · rw [scanRange_succ hi] at hend
      split at hend
      case isTrue hfull => exact ih (h.jumpSuper hsound halign hi hfull) (by omega) hend
      case isFalse hsuper =>
        split at hend
        case isTrue hfull => exact ih (h.jumpWord halign hi hsuper hfull) (by omega) hend
        case isFalse hword =>
          split at hend
          case isTrue hused => exact ih (h.next hsuper hword hused) (by omega) hend
          case isFalse => omega
    · intro g hfirst hg
      exact h.behind g hfirst (by omega) hg

end Scanned

theorem scanRange_finds_iff (hsound : SuperSound s) (halign : first % 32 = 0 ∨ last ≤ 1024) :
    scanRange s last (last - first) first < last ↔ ∃ f, Seen s first last f := by
  constructor
  · intro hfound
    refine ⟨scanRange s last (last - first) first, scanRange_ge _ _ _, hfound, ?_, ?_⟩
    · exact scanRange_free (by omega) hfound
    · intro hskip
      exact scanRange_ne_skipped hskip _ rfl
  · rintro ⟨f, hseen⟩
    by_contra hend
    have hmissed := Scanned.start.missed hsound halign (by omega) (Nat.le_of_not_lt hend)
    exact hseen.reached (hmissed f hseen.first_le hseen.lt_last hseen.free)

def Visible (s : PhysMem) (f : ℕ) : Prop :=
  ∃ i, 1 ≤ i ∧ i ≤ 4 ∧ Seen s (classPage i) (min (classPage (i + 1) - 1) s.lastPossibleFree) f

theorem classPage_mono : ∀ i ≤ 4, ∀ j < i, classPage (j + 1) ≤ classPage i := by decide

theorem classPage_aligned :
    ∀ i ≤ 4, classPage i % 32 = 0 ∨ classPage (i + 1) - 1 ≤ 1024 := by decide

/-- The classful scan fails exactly when no class from 2 up has a frame that can be seen. -/
theorem scanClasses_none_iff (hsound : SuperSound s) (i l : ℕ) (hi : i ≤ 5) :
    (scanClasses s i l).2 = none ↔
      ∀ j, 1 ≤ j → j < i → ¬ ∃ f, Seen s (classPage j) (min (classPage (j + 1) - 1) l) f := by
  induction i generalizing l with
  | zero => simp [scanClasses]
  | succ i ih =>
    simp only [scanClasses, Nat.lt_succ_iff_lt_or_eq, or_imp, forall_and]
    by_cases hfirst : classPage i > l
    · rw [if_pos hfirst, ih l (by omega)]
      refine (and_iff_left ?_).symm
      rintro _ - rfl ⟨f, hseen⟩
      have hge := hseen.first_le
      have hlt := hseen.lt_last
      omega
    rw [if_neg hfirst]
    have hlast : (if classPage (i + 1) - 1 > l then l else classPage (i + 1) - 1) =
        min (classPage (i + 1) - 1) l := by
      split <;> omega
    have halign := classPage_aligned i (by omega)
    rw [hlast]
    have hfinds : scanRange s (min (classPage (i + 1) - 1) l)
          (min (classPage (i + 1) - 1) l - classPage i) (classPage i) <
          min (classPage (i + 1) - 1) l ↔
        ∃ f, Seen s (classPage i) (min (classPage (i + 1) - 1) l) f :=
      scanRange_finds_iff hsound (by omega)
    split
    case isTrue hfound =>
      obtain ⟨f, hseen⟩ := hfinds.mp hfound
      split
      case isTrue hone => exact iff_of_true rfl ⟨fun j hj hlt => by omega, fun j hj hlt => by omega⟩
      case isFalse hone =>
        exact iff_of_false (some_ne_none _) fun hnone => hnone.2 i (by omega) rfl ⟨f, hseen⟩
    case isFalse hmissed =>
      rw [ih (classPage i) (by omega)]
      -- below a class that has been scanned the limit no longer cuts a range
      have hsame : ∀ j < i, min (classPage (j + 1) - 1) (classPage i) =
          min (classPage (j + 1) - 1) l := by
        intro j hj
        have hmono := classPage_mono i (by omega) j hj
        omega
      refine Iff.trans ?_ (and_iff_left ?_).symm
      · exact forall₃_congr fun j hj hlt => by rw [hsame j hlt]
      · rintro _ - rfl hseen
        exact hmissed (hfinds.mpr hseen)

def FreeAbove (s : PhysMem) : Prop := ∃ f, 16 ≤ f ∧ f < s.pageCount ∧ s.used f = false

/-- `MM_AllocPhys` reports that memory is out only when it is. -/
def Honest (s : PhysMem) : Prop := ∀ t, mmAllocPhys s = some (0, t) → ¬ FreeAbove s

def Covered (s : PhysMem) : Prop := FreeAbove s → ∃ f, Visible s f

structure Fit (s : PhysMem) : Prop where
  sound : SuperSound s
  limit : s.pageCount = 0 ∨ s.lastPossibleFree < s.pageCount

theorem mmAllocPhys_zero_iff (hlimit : s.lastPossibleFree < s.pageCount) :
    (∃ t, mmAllocPhys s = some (0, t)) ↔ (scanClasses s 5 s.lastPossibleFree).2 = none := by
  unfold mmAllocPhys
  dsimp only
  cases hscan : (scanClasses s 5 s.lastPossibleFree).2 with
  | none => simp
  | some n =>
    obtain ⟨-, hlow, hlt, htop⟩ := (scanClasses_spec 5 s.lastPossibleFree le_rfl).2 n hscan
    have hne : n * pageSize ≠ 0 := Nat.mul_ne_zero (by omega) (by decide)
    dsimp only
    rw [if_neg (by omega), if_neg (by omega)]
    constructor
    · rintro ⟨t, ht⟩
      exact absurd (Prod.mk.inj (some.inj ht)).1 hne
    · intro hnone
      cases hnone

theorem visible_iff_found (hsound : SuperSound s) :
    (scanClasses s 5 s.lastPossibleFree).2 = none ↔ ¬ ∃ f, Visible s f := by
  rw [scanClasses_none_iff hsound 5 _ le_rfl]
  constructor
  · rintro hnone ⟨f, i, hi, hle, hseen⟩
    exact hnone i hi (by omega) ⟨f, hseen⟩
  · rintro hnone j hj hlt ⟨f, hseen⟩
    exact hnone ⟨f, j, hj, by omega, hseen⟩

theorem honest_iff_covered (h : Fit s) : Honest s ↔ Covered s := by
  rcases h.limit with hzero | hlimit
  · have hnone : ¬ FreeAbove s := by
      rintro ⟨f, -, hf, -⟩
      omega
    exact ⟨fun _ hfree => absurd hfree hnone, fun _ _ _ => hnone⟩
  have hiff := (mmAllocPhys_zero_iff hlimit).trans (visible_iff_found h.sound)
  constructor
  · intro hhonest hfree
    by_contra hnone
    obtain ⟨t, ht⟩ := hiff.mpr hnone
    exact hhonest t ht hfree
  · intro hcovered t ht hfree
    exact hiff.mp ⟨t, ht⟩ (hcovered hfree)

theorem SuperSound.markBlock (h : SuperSound s) : SuperSound (markBlock s n) := by
  intro m hm
  rw [markBlock_keeps.1]
  unfold PhysMemModel.markBlock at hm
  split at hm
  case isTrue hfull =>
    rw [bit_setBit (by decide), or_eq_true, decide_eq_true_eq] at hm
    rcases hm with hm | hm
    · exact h m hm
    · exact used_of_fullWord hfull hm
  case isFalse => exact h m hm

theorem SuperSound.grow (h : SuperSound s) (hsuper : t.superBitmap = s.superBitmap)
    (hused : ∀ m, s.used m = true → t.used m = true) : SuperSound t := by
  intro m hm
  rw [hsuper] at hm
  exact hused m (h m hm)

theorem SuperSound.taken (h : SuperSound s) {l : ℕ} : SuperSound (taken s l n) := by
  apply SuperSound.markBlock
  apply h.grow
  · rw [setUsed_keeps.1, setReference_keeps.2.1]
  · intro m hm
    rw [setUsed_used, setReference_keeps.1, or_eq_true]
    exact .inl hm

theorem SuperSound.referenced (h : SuperSound s) : SuperSound (referenced s n) := by
  apply SuperSound.markBlock
  split
  · exact h
  · apply h.grow
    · rfl
    · intro m hm
      rw [setUsed_used, or_eq_true]
      exact .inl hm

theorem freeFrame_super (m : ℕ) (hm : bit (freeFrame s n).superBitmap m = true) :
    bit s.superBitmap m = true := by
  unfold freeFrame at hm
  dsimp only at hm
  split at hm
  · rw [bit_clearBit (by decide), and_eq_true] at hm
    exact hm.1
  · exact hm

theorem freeFrame_super_kept (hother : ∃ k, k / 32 = n / 32 ∧ k ≠ n ∧ s.used k = true) :
    (freeFrame s n).superBitmap = s.superBitmap := by
  obtain ⟨k, hword, hne, hused⟩ := hother
  have hbit : bit (clearBit s.pageBitmap n) k = true := by
    rw [bit_clearBit (by decide), decide_eq_false hne, Bool.not_false, Bool.and_true]
    exact hused
  have hnonzero := word_ne_zero hbit
  rw [hword] at hnonzero
  unfold freeFrame
  rw [if_neg hnonzero]

theorem sound_freeFrame_iff (h : SuperSound s) :
    SuperSound (freeFrame s n) ↔ bit s.superBitmap (n / 32) = false := by
  constructor
  · intro hfreed
    by_contra hset
    have hset : bit s.superBitmap (n / 32) = true := not_eq_false _ ▸ hset
    have hkept : (freeFrame s n).superBitmap = s.superBitmap := by
      apply freeFrame_super_kept
      by_cases hlow : n % 32 = 0
      · exact ⟨n + 1, by omega, by omega, h (n + 1) (by rwa [show (n + 1) / 32 = n / 32 by omega])⟩
      · exact ⟨n - 1, by omega, by omega, h (n - 1) (by rwa [show (n - 1) / 32 = n / 32 by omega])⟩
    have hused := hfreed n (by rw [hkept, hset])
    simp at hused
  · intro hclear m hm
    have hbit := freeFrame_super _ hm
    have hne : m ≠ n := by
      rintro rfl
      cases hclear.symm.trans hbit
    rw [freeFrame_used, h m hbit, decide_eq_false hne]
    rfl

variable {r : ℕ}

theorem Fit.allocPhys (h : Fit s) (heq : mmAllocPhys s = some (r, t)) :
    Fit t ∧ t.pageCount = s.pageCount := by
  have hlimit := h.limit
  obtain ⟨l, hl, hout | ⟨n, -, -, -, hout⟩⟩ := mmAllocPhys_cases s
  · cases heq.symm.trans hout
    exact ⟨⟨h.sound, by dsimp only; omega⟩, rfl⟩
  · cases heq.symm.trans hout
    refine ⟨⟨h.sound.taken, ?_⟩, taken_keeps.2.1⟩
    simp only [taken_keeps]
    omega

theorem Fit.needReference (h : Fit s) (heq : needReference s n = some t) :
    Fit t ∧ t.pageCount = s.pageCount := by
  unfold PhysMemModel.needReference at heq
  split at heq
  case isTrue =>
    cases heq
    exact ⟨h, rfl⟩
  case isFalse =>
    obtain ⟨u, hpage, rfl⟩ := map_eq_some_iff.mp heq
    obtain ⟨⟨paddr, s₁⟩, halloc, hpage⟩ := bind_eq_some_iff.mp hpage
    obtain ⟨⟨tmp, s₂⟩, htable, hpage⟩ := bind_eq_some_iff.mp hpage
    dsimp only at htable hpage
    split at hpage
    case isTrue => cases hpage
    case isFalse =>
      cases hpage
      obtain ⟨h₁, hcount₁⟩ := h.allocPhys halloc
      have h₂ : Fit s₂ ∧ s₂.pageCount = s₁.pageCount := by
        split at htable
        · cases htable
          exact ⟨h₁, rfl⟩
        · exact h₁.allocPhys htable
      exact ⟨⟨h₂.1.sound, h₂.1.limit⟩, h₂.2.trans hcount₁⟩

theorem Fit.refPhys (h : Fit s) {pAddr : ℕ} (heq : mmRefPhys s pAddr = some t) : Fit t := by
  by_cases hn : pAddr / pageSize < s.pageCount
  · rw [mmRefPhys_eq hn] at heq
    obtain ⟨u, hneed, rfl⟩ := map_eq_some_iff.mp heq
    obtain ⟨hu, -⟩ := h.needReference hneed
    refine ⟨hu.sound.referenced, ?_⟩
    simp only [referenced_keeps]
    exact hu.limit
  · rw [mmRefPhys_outside (by omega)] at heq
    cases heq
    exact h

def Frees (s : PhysMem) (pAddr : ℕ) : Prop :=
  pAddr / pageSize < s.pageCount ∧ s.used (pAddr / pageSize) = true ∧
    LastReference s (pAddr / pageSize)

instance (s : PhysMem) (pAddr : ℕ) : Decidable (Frees s pAddr) := by
  unfold Frees
  infer_instance

theorem sound_derefPhys_iff (h : SuperSound s) (pAddr : ℕ) : SuperSound (mmDerefPhys s pAddr) ↔
      (Frees s pAddr → bit s.superBitmap (pAddr / pageSize / 32) = false) := by
  by_cases hignored : pAddr / pageSize ≥ s.pageCount ∨ s.used (pAddr / pageSize) = false
  · rw [mmDerefPhys_ignored hignored]
    refine ⟨fun _ hfrees => ?_, fun _ => h⟩
    rcases hignored with hout | hfree
    · exact absurd hfrees.1 (by omega)
    · exact absurd hfrees.2.1 (by simp [hfree])
  have hn : pAddr / pageSize < s.pageCount := by omega
  have hused : s.used (pAddr / pageSize) = true := by simpa using (not_or.mp hignored).2
  rw [mmDerefPhys_eq hn hused]
  split
  case isTrue hlast =>
    have hsound : SuperSound (dropped s (pAddr / pageSize)) := h
    rw [sound_freeFrame_iff hsound]
    exact ⟨fun hclear _ => hclear, fun hclear => hclear ⟨hn, hused, hlast⟩⟩
  case isFalse hmore =>
    exact ⟨fun _ hfrees => absurd hfrees.2.2 hmore, fun _ => h⟩

theorem limit_derefPhys (h : Fit s) (pAddr : ℕ) : (mmDerefPhys s pAddr).pageCount = 0 ∨
      (mmDerefPhys s pAddr).lastPossibleFree < (mmDerefPhys s pAddr).pageCount := by
  have hlimit := h.limit
  by_cases hignored : pAddr / pageSize ≥ s.pageCount ∨ s.used (pAddr / pageSize) = false
  · rw [mmDerefPhys_ignored hignored]
    exact hlimit
  have hn : pAddr / pageSize < s.pageCount := by omega
  have hused : s.used (pAddr / pageSize) = true := by simpa using (not_or.mp hignored).2
  have hdropped : (dropped s (pAddr / pageSize)).lastPossibleFree < s.pageCount := by
    rcases hlimit with hzero | hlt
    · exact absurd (hzero ▸ hn) (Nat.not_lt_zero _)
    · exact Nat.max_lt.mpr ⟨hlt, hn⟩
  rw [mmDerefPhys_eq hn hused]
  right
  split
  · simp only [freeFrame_keeps]
    exact hdropped
  · exact hdropped

/-- The states in which the call calls `MM_AllocPhys`: its own, and those for the reference page -/
def allocCalls (s : PhysMem) : Call → List PhysMem
  | .allocPhys => [s]
  | .refPhys pAddr =>
    if pAddr / pageSize < s.pageCount ∧ s.counted (pAddr / pageSize) = false then
      s :: match mmAllocPhys s with
        | none => []
        | some (_, t) => if t.refTable then [] else [t]
    else []
  | .derefPhys _ => []

/-- Every report that memory is out is true, and the super bitmap is sound afterwards. -/
def Complete (s : PhysMem) (call : Call) : Prop :=
  (∀ t ∈ allocCalls s call, Honest t) ∧ ∀ t, perform s call = some t → SuperSound t

/-- A free frame can be seen if there is one, and none is given back to a word marked full. -/
def Unhidden (s : PhysMem) (call : Call) : Prop :=
  (∀ t ∈ allocCalls s call, Covered t) ∧
  ∀ pAddr, call = .derefPhys pAddr → Frees s pAddr →
    bit s.superBitmap (pAddr / pageSize / 32) = false

theorem fit_allocCalls (h : Fit s) (call : Call) : ∀ t ∈ allocCalls s call, Fit t := by
  intro t ht
  cases call with
  | allocPhys =>
    obtain rfl := mem_singleton.mp ht
    exact h
  | derefPhys pAddr => cases ht
  | refPhys pAddr =>
    simp only [allocCalls] at ht
    split at ht
    case isFalse => cases ht
    case isTrue =>
      rcases mem_cons.mp ht with rfl | ht
      · exact h
      split at ht
      case h_1 => cases ht
      case h_2 u halloc =>
        split at ht
        · cases ht
        · obtain rfl := mem_singleton.mp ht
          exact (h.allocPhys halloc).1

theorem fit_perform (h : Fit s) {call : Call} (hunhidden : Unhidden s call)
    (hcall : perform s call = some t) : Fit t := by
  cases call with
  | allocPhys =>
    obtain ⟨⟨r, u⟩, halloc, rfl⟩ := map_eq_some_iff.mp hcall
    exact (h.allocPhys halloc).1
  | refPhys pAddr => exact h.refPhys hcall
  | derefPhys pAddr =>
    cases hcall
    exact ⟨(sound_derefPhys_iff h.sound pAddr).mpr (hunhidden.2 pAddr rfl), limit_derefPhys h pAddr⟩

theorem complete_iff (h : Fit s) (call : Call) : Complete s call ↔ Unhidden s call := by
  unfold Complete Unhidden
  apply and_congr
  · exact forall₂_congr fun t ht => honest_iff_covered (fit_allocCalls h call t ht)
  · cases call with
    | allocPhys =>
      refine ⟨fun _ pAddr hcall => (by cases hcall), fun _ t ht => ?_⟩
      obtain ⟨⟨r, u⟩, halloc, rfl⟩ := map_eq_some_iff.mp ht
      exact (h.allocPhys halloc).1.sound
    | refPhys pAddr =>
      exact ⟨fun _ pAddr hcall => (by cases hcall), fun _ t ht => (h.refPhys ht).sound⟩
    | derefPhys pAddr =>
      have hiff := sound_derefPhys_iff h.sound pAddr
      constructor
      · intro hsound pAddr' hcall
        obtain rfl := Call.derefPhys.inj hcall
        exact hiff.mp (hsound _ rfl)
      · intro hclear t ht
        cases ht
        exact hiff.mpr (hclear pAddr rfl)

theorem fit_mmInstall (table : Bool) (ents : List PMemMapEnt) : Fit (mmInstall table ents) := by
  constructor
  · intro n hn
    have hbit : bit (fillSuper (mmInstall table ents).pageBitmap
        ((pageCountOf ents + 31) / 32)) (n / 32) = true := hn
    rw [fillSuper_bit, decide_eq_true_eq] at hbit
    exact used_of_fullWord hbit.2 rfl
  · show pageCountOf ents = 0 ∨ (pageCountOf ents + (2 ^ 64 - 1)) % 2 ^ 64 < pageCountOf ents
    omega

/-- Memory is out only when it is, exactly if no step hides free memory from the scan. -/
theorem complete_iff_unhidden (table : Bool) (ents : List PMemMapEnt) (calls : List Call) :
    SuperSound (mmInstall table ents) ∧
    (Along perform Complete (mmInstall table ents) calls ↔
      Along perform Unhidden (mmInstall table ents) calls) := by
  have hfit := fit_mmInstall table ents
  refine ⟨hfit.sound, ?_⟩
  apply along_congr _ _ hfit
  · intro s call t h hunhidden hcall
    exact fit_perform h hunhidden hcall
  · intro s call h
    exact complete_iff h call

def mixedMap : List PMemMapEnt := [⟨0, 31 * 4096, .used⟩, ⟨31 * 4096, 33 * 4096, .free⟩]

def freeMap : List PMemMapEnt := [⟨0, 32 * 4096, .free⟩]

/-- Frame 31 is given back to a full word: the sixteenth allocation finds memory out with it free.
-/
theorem free_frames_hidden :
    (∃ s, run perform (mmInstall true mixedMap) [.allocPhys, .derefPhys (31 * 4096)] = some s ∧
      bit s.superBitmap 0 = true ∧ s.used 31 = false) ∧
    (∃ s, run perform (mmInstall true freeMap) (List.replicate 15 .allocPhys) = some s ∧
      (mmAllocPhys s).map Prod.fst = some 0 ∧ FreeAbove s) := by
  constructor
  · have heval : (run perform (mmInstall true mixedMap) [.allocPhys, .derefPhys (31 * 4096)]).map
        (fun s => (bit s.superBitmap 0, s.used 31)) = some (true, false) := by decide +kernel
    obtain ⟨s, hrun, hvalues⟩ := map_eq_some_iff.mp heval
    simp only [Prod.mk.injEq] at hvalues
    exact ⟨s, hrun, hvalues⟩
  · have heval : (run perform (mmInstall true freeMap) (replicate 15 .allocPhys)).map
        (fun s => ((mmAllocPhys s).map Prod.fst, s.pageCount, s.used 31)) =
          some (some 0, 32, false) := by decide +kernel
    obtain ⟨s, hrun, hvalues⟩ := map_eq_some_iff.mp heval
    simp only [Prod.mk.injEq] at hvalues
    obtain ⟨hzero, hcount, hfree⟩ := hvalues
    exact ⟨s, hrun, hzero, 31, by decide, by omega, hfree⟩

end PhysMemCompleteness
