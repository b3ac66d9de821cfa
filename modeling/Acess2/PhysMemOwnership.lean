import Acess2.PhysMemFrames
import Acess2.GuardedRuns

/-! Who owns a frame: the bitmap and the lazily populated counts against the references that
are outstanding. Populating takes every used frame for one reference, so the reservation of a
frame counts like one. -/
namespace PhysMemOwnership

open Function GuardedRuns List Nat Option PhysMemFrames PhysMemModel BitVec

/-- The manager with the number of references to each frame that are taken and not dropped -/
structure Ledger where
  mem : PhysMem
  held : ℕ → ℕ

def take (held : ℕ → ℕ) (n : ℕ) : ℕ → ℕ := update held n (held n + 1)

/-- The frames that `MM_RefPhys` allocates to keep the count of frame `n` in -/
def ownFrames (s : PhysMem) (n : ℕ) : List ℕ :=
  if s.counted n then []
  else
    match mmAllocPhys s with
    | none => []
    | some (paddr, t) =>
      if t.refTable then [paddr / pageSize]
      else
        match mmAllocPhys t with
        | none => []
        | some (tmp, _) => [paddr / pageSize, tmp / pageSize]

def step (m : Ledger) : Call → Option Ledger
  | .allocPhys => (mmAllocPhys m.mem).map fun (r, t) =>
      ⟨t, if r = 0 then m.held else take m.held (r / pageSize)⟩
  | .refPhys pAddr => (mmRefPhys m.mem pAddr).map fun t =>
      ⟨t, if pAddr / pageSize ≥ m.mem.pageCount then m.held
        else take ((ownFrames m.mem (pAddr / pageSize)).foldl take m.held) (pAddr / pageSize)⟩
  | .derefPhys pAddr => some
      ⟨mmDerefPhys m.mem pAddr, if pAddr / pageSize ≥ m.mem.pageCount then m.held
        else update m.held (pAddr / pageSize) (m.held (pAddr / pageSize) - 1)⟩

/-- Only a reference that is outstanding is dropped, and an `int` can count them. -/
def Allowed (m : Ledger) : Call → Prop
  | .allocPhys => True
  | .refPhys pAddr => pAddr / pageSize < m.mem.pageCount → m.held (pAddr / pageSize) + 2 < 2 ^ 31
  | .derefPhys pAddr => pAddr / pageSize < m.mem.pageCount → 1 ≤ m.held (pAddr / pageSize)

instance (m : Ledger) : DecidablePred (Allowed m) := by
  intro call
  cases call <;> unfold Allowed <;> infer_instance

def Reserved (ents : List PMemMapEnt) (n : ℕ) : Prop := ¬ ∃ ent ∈ ents, PMemMapEnt.Frees ent n

instance (ents : List PMemMapEnt) (n : ℕ) : Decidable (Reserved ents n) := by
  unfold Reserved
  infer_instance

def installed (table : Bool) (ents : List PMemMapEnt) : Ledger := ⟨mmInstall table ents, fun _ => 0⟩

def count (ents : List PMemMapEnt) (held : ℕ → ℕ) (n : ℕ) : ℕ :=
  held n + if Reserved ents n then 1 else 0

/-- Bitmap and counts both agree with the references; an uncounted frame has one at most. -/
structure Balanced (ents : List PMemMapEnt) (s : PhysMem) (held : ℕ → ℕ) : Prop where
  used_iff : ∀ n < s.pageCount, s.used n = true ↔ 1 ≤ count ents held n
  entry : ∀ n < s.pageCount, s.counted n = true →
    s.pageReferences n = BitVec.ofNat 32 (count ents held n)
  single : ∀ n < s.pageCount, s.counted n = false → count ents held n ≤ 1
  bounded : ∀ n < s.pageCount, count ents held n < 2 ^ 31

variable {ents : List PMemMapEnt} {s t : PhysMem} {held : ℕ → ℕ} {m m' : Ledger} {l n : ℕ}

theorem count_take (k : ℕ) :
    count ents (take held n) k = count ents held k + if k = n then 1 else 0 := by
  unfold count take
  by_cases hk : k = n
  · subst hk
    rw [update_self, if_pos rfl]
    omega
  · rw [update_of_ne hk, if_neg hk, add_zero]

namespace Balanced

section

variable (h : Balanced ents s held)
include h

theorem free_count (hn : n < s.pageCount) (hfree : s.used n = false) : count ents held n = 0 := by
  by_contra hne
  have hused := (h.used_iff n hn).mpr (by omega)
  cases hfree.symm.trans hused

theorem limit (l : ℕ) : Balanced ents { s with lastPossibleFree := l } held := ⟨h.1, h.2, h.3, h.4⟩

theorem added (hpages : t.pageCount = s.pageCount) (hmapped : t.counted = s.counted)
    (hused : ∀ k, t.used k = (s.used k || decide (k = n)))
    (hself : s.counted n = true → t.pageReferences n = s.pageReferences n + 1)
    (hrest : ∀ k ≠ n, t.pageReferences k = s.pageReferences k)
    (hsingle : s.counted n = false → count ents held n = 0)
    (hbound : count ents held n + 1 < 2 ^ 31) : Balanced ents t (take held n) := by
  constructor <;> intro k hk <;> rw [hpages] at hk <;> rw [count_take]
  · rw [hused, Bool.or_eq_true, decide_eq_true_eq, h.used_iff k hk]
    split <;> omega
  · intro hc
    rw [hmapped] at hc
    rcases eq_or_ne k n with rfl | hkn
    · rw [if_pos rfl, hself hc, h.entry k hk hc, ofNat_add]
      rfl
    · rw [if_neg hkn, hrest k hkn, h.entry k hk hc, add_zero]
  · intro hc
    rw [hmapped] at hc
    have hone := h.single k hk hc
    split
    case isTrue hkn =>
      subst hkn
      rw [hsingle hc]
    case isFalse => exact hone
  · have hlt := h.bounded k hk
    split
    case isTrue hkn => exact hkn ▸ hbound
    case isFalse => exact hlt

theorem taken (hn : n < s.pageCount) (hfree : s.used n = false) :
    Balanced ents (taken s l n) (take held n) := by
  have hzero := h.free_count hn hfree
  refine h.added taken_keeps.2.1 taken_keeps.1 (fun k => taken_used) ?_ ?_ (fun _ => hzero)
    (by omega)
  · intro hcounted
    rw [taken_pageReferences, if_pos ⟨hcounted, rfl⟩, h.entry n hn hcounted, hzero]
    rfl
  · intro k hkn
    rw [taken_pageReferences, if_neg (fun hand => hkn hand.2)]

theorem allocPhys {r : ℕ} (heq : mmAllocPhys s = some (r, t)) :
    Balanced ents t (if r = 0 then held else take held (r / pageSize)) ∧
    t.pageCount = s.pageCount ∧ (∀ k, t.counted k = s.counted k) ∧
    (r ≠ 0 → r / pageSize < s.pageCount ∧ count ents held (r / pageSize) = 0) := by
  obtain ⟨l, -, hout | ⟨n, hfree, hlow, hn, hout⟩⟩ := mmAllocPhys_cases s
  · cases heq.symm.trans hout
    exact ⟨h.limit l, rfl, fun k => rfl, fun hr => absurd rfl hr⟩
  cases heq.symm.trans hout
  have hdiv : n * pageSize / pageSize = n := Nat.mul_div_cancel n (by decide)
  have hne : n * pageSize ≠ 0 := Nat.mul_ne_zero (by omega) (by decide)
  rw [if_neg hne, hdiv]
  exact ⟨h.taken hn hfree, taken_keeps.2.1, fun k => congrFun taken_keeps.1 k,
    fun _ => ⟨hn, h.free_count hn hfree⟩⟩

/-- Mapping and populating the counts of a block: each of its frames had one reference at most,
which is what its bit says. -/
theorem mapped {block : ℕ} (hblock : s.refMapped block = false) :
    Balanced ents (populate { s with refTable := true, refMapped := update s.refMapped block true }
        block) held := by
  have hcounted : ∀ k, k / 1024 ≠ block →
      (update s.refMapped block true) (k / 1024) = s.counted k := by
    intro k hk
    rw [update_of_ne hk]
    rfl
  refine ⟨h.used_iff, ?_, ?_, h.bounded⟩
  · intro k hk hc
    show (if k / 1024 = block then (if s.used k then 1 else 0) else s.pageReferences k) = _
    by_cases hkb : k / 1024 = block
    · rw [if_pos hkb]
      have hle := h.single k hk (by rw [PhysMem.counted, hkb, hblock])
      have hused := h.used_iff k hk
      split
      case isTrue hu =>
        have hone : count ents held k = 1 := by
          have := hused.mp hu
          omega
        rw [hone]
        rfl
      case isFalse hu =>
        have hzero : count ents held k = 0 := by
          by_contra hne
          exact hu (hused.mpr (by omega))
        rw [hzero]
        rfl
    · rw [if_neg hkb]
      apply h.entry k hk
      rw [← hcounted k hkb]
      exact hc
  · intro k hk hc
    by_cases hkb : k / 1024 = block
    · exact absurd hc (by simp [PhysMem.counted, populate, hkb])
    · apply h.single k hk
      rw [← hcounted k hkb]
      exact hc

/-- After the counts of frame `n` have been made, they are there, and they can take one more
reference. -/
theorem needReference (hn : n < s.pageCount)
    (hbound : held n + 2 < 2 ^ 31) (heq : needReference s n = some t) :
    Balanced ents t ((ownFrames s n).foldl take held) ∧ t.pageCount = s.pageCount ∧
    t.counted n = true ∧ count ents ((ownFrames s n).foldl take held) n + 1 < 2 ^ 31 := by
  unfold PhysMemModel.needReference at heq
  unfold ownFrames
  cases hcounted : s.counted n with
  | true =>
    rw [hcounted, if_pos rfl] at heq
    cases heq
    rw [if_pos rfl]
    refine ⟨h, rfl, hcounted, ?_⟩
    simp only [foldl_nil, count]
    split <;> omega
  | false =>
    rw [hcounted, if_neg (by decide)] at heq
    rw [if_neg (by decide)]
    obtain ⟨u, hpage, rfl⟩ := map_eq_some_iff.mp heq
    obtain ⟨⟨paddr, s₁⟩, halloc, hpage⟩ := bind_eq_some_iff.mp hpage
    obtain ⟨⟨tmp, s₂⟩, htable, hpage⟩ := bind_eq_some_iff.mp hpage
    dsimp only at hpage
    split at hpage
    case isTrue => cases hpage
    case isFalse hnonzero =>
      cases hpage
      obtain ⟨hpaddr, htmp⟩ := not_or.mp hnonzero
      obtain ⟨h₁, hcount₁, hmapped₁, -⟩ := h.allocPhys halloc
      rw [if_neg hpaddr] at h₁
      have hone := h.single n hn hcounted
      rw [halloc]
      dsimp only at htable ⊢
      cases hrt : s₁.refTable with
      | true =>
        rw [hrt, if_pos rfl] at htable
        cases htable
        rw [if_pos rfl]
        refine ⟨h₁.mapped ?_, hcount₁, ?_, ?_⟩
        · exact (hmapped₁ n).trans hcounted
        · simp [PhysMem.counted, populate]
        · simp only [foldl_cons, foldl_nil, count_take]
          split <;> omega
      | false =>
        rw [hrt, if_neg (by decide)] at htable
        rw [if_neg (by decide), htable]
        obtain ⟨h₂, hcount₂, hmapped₂, -⟩ := h₁.allocPhys htable
        rw [if_neg htmp] at h₂
        refine ⟨h₂.mapped ?_, hcount₂.trans hcount₁, ?_, ?_⟩
        · exact (hmapped₂ n).trans ((hmapped₁ n).trans hcounted)
        · simp [PhysMem.counted, populate]
        · simp only [foldl_cons, foldl_nil, count_take]
          split <;> split <;> omega

theorem referenced (hcounted : s.counted n = true) (hbound : count ents held n + 1 < 2 ^ 31) :
    Balanced ents (referenced s n) (take held n) := by
  refine h.added referenced_keeps.2.1 referenced_keeps.1 (fun k => referenced_used) ?_ ?_ ?_ hbound
  · intro _
    rw [referenced_pageReferences, if_pos rfl]
  · intro k hkn
    rw [referenced_pageReferences, if_neg hkn]
  · intro hc
    cases hcounted.symm.trans hc

theorem refPhys {pAddr : ℕ}
    (hbound : pAddr / pageSize < s.pageCount → held (pAddr / pageSize) + 2 < 2 ^ 31)
    (heq : mmRefPhys s pAddr = some t) :
    Balanced ents t (if pAddr / pageSize ≥ s.pageCount then held
      else take ((ownFrames s (pAddr / pageSize)).foldl take held) (pAddr / pageSize)) := by
  by_cases hout : pAddr / pageSize ≥ s.pageCount
  · rw [mmRefPhys_outside hout] at heq
    cases heq
    rw [if_pos hout]
    exact h
  have hn : pAddr / pageSize < s.pageCount := by omega
  rw [mmRefPhys_eq hn] at heq
  rw [if_neg hout]
  generalize pAddr / pageSize = n at hbound heq hn ⊢
  obtain ⟨u, hneed, rfl⟩ := map_eq_some_iff.mp heq
  obtain ⟨hu, hcount, hcounted, hroom⟩ := h.needReference hn (hbound hn) hneed
  exact hu.referenced hcounted hroom

end

theorem count_drop (hheld : 1 ≤ held n) (k : ℕ) : count ents (update held n (held n - 1)) k =
      count ents held k - if k = n then 1 else 0 := by
  unfold count
  by_cases hk : k = n
  · subst hk
    rw [update_self, if_pos rfl]
    omega
  · rw [update_of_ne hk, if_neg hk, Nat.sub_zero]

section

variable (h : Balanced ents s held) (hn : n < s.pageCount) (hheld : 1 ≤ held n)
include h hn hheld

theorem lastReference_iff : LastReference s n ↔ count ents held n = 1 := by
  unfold LastReference
  have hpos : 1 ≤ count ents held n := le_add_right_of_le hheld
  cases hcounted : s.counted n with
  | false =>
    have hle := h.single n hn hcounted
    simp
    omega
  | true =>
    have hbound := h.bounded n hn
    rw [h.entry n hn hcounted, ← toNat_inj]
    simp
    omega

/-- What dropping a reference to frame `n` leaves behind, in the bitmap and in the counts -/
theorem given_back (hcount : t.pageCount = s.pageCount) (hmapped : ∀ k, t.counted k = s.counted k)
    (hentry : t.pageReferences = (dropped s n).pageReferences)
    (hused : ∀ k, t.used k = true ↔ s.used k = true ∧ (k = n → ¬ LastReference s n)) :
    Balanced ents t (update held n (held n - 1)) := by
  have hlast := h.lastReference_iff hn hheld
  have hpos : 1 ≤ count ents held n := Nat.le_add_right_of_le hheld
  constructor
  · intro k hk
    rw [hcount] at hk
    rw [hused, h.used_iff k hk, count_drop hheld, hlast]
    by_cases hkn : k = n
    · subst hkn
      rw [if_pos rfl]
      omega
    · rw [if_neg hkn]
      omega
  · intro k hk hc
    rw [hcount] at hk
    rw [hmapped] at hc
    rw [hentry, count_drop hheld]
    by_cases hkn : k = n
    · subst hkn
      rw [dropped_pageReferences hc, if_pos rfl, if_pos rfl, h.entry k hk hc]
      obtain ⟨c, hc⟩ := Nat.exists_eq_add_of_le' hpos
      rw [hc, Nat.add_sub_cancel, ofNat_add]
      exact add_sub_cancel _ _
    · rw [if_neg hkn, Nat.sub_zero, ← h.entry k hk hc]
      cases hcn : s.counted n with
      | true => rw [dropped_pageReferences hcn, if_neg hkn]
      | false => rw [dropped_uncounted hcn]
  · intro k hk hc
    rw [hcount] at hk
    rw [hmapped] at hc
    have hle := h.single k hk hc
    rw [count_drop hheld]
    omega
  · intro k hk
    rw [hcount] at hk
    have hlt := h.bounded k hk
    rw [count_drop hheld]
    omega

end

theorem derefPhys (h : Balanced ents s held) {pAddr : ℕ}
    (hheld : pAddr / pageSize < s.pageCount → 1 ≤ held (pAddr / pageSize)) :
    Balanced ents (mmDerefPhys s pAddr) (if pAddr / pageSize ≥ s.pageCount then held
      else update held (pAddr / pageSize) (held (pAddr / pageSize) - 1)) := by
  by_cases hout : pAddr / pageSize ≥ s.pageCount
  · rw [mmDerefPhys_ignored (.inl hout), if_pos hout]
    exact h
  have hn : pAddr / pageSize < s.pageCount := by omega
  have hpos := hheld hn
  have hused : s.used (pAddr / pageSize) = true := by
    rw [h.used_iff _ hn, count]
    omega
  rw [mmDerefPhys_eq hn hused, if_neg hout]
  generalize pAddr / pageSize = n at hn hpos hused ⊢
  split
  case isTrue hlast =>
    apply h.given_back hn hpos
    · simp
    · simp
    · simp
    · intro k
      simp [hlast]
  case isFalse hmore =>
    apply h.given_back hn hpos
    · simp
    · simp
    · rfl
    · intro k
      simp [hmore]

end Balanced

/-- If the last word is cut off, every frame of it is free RAM. -/
def WholeWords (ents : List PMemMapEnt) : Prop :=
  ∀ n < pageCountOf ents, pageCountOf ents / 32 ≤ n / 32 → ¬ Reserved ents n

theorem balanced_installed (table : Bool) (hwords : WholeWords ents) :
    Balanced ents (mmInstall table ents) (fun _ => 0) := by
  have hle : ∀ n, count ents (fun _ => 0) n ≤ 1 := by
    intro n
    unfold count
    dsimp only
    split <;> omega
  constructor
  · intro n hn
    rw [mmInstall_used, Bool.and_eq_true, decide_eq_true_eq, Bool.not_eq_true',
      decide_eq_false_iff_not, count]
    by_cases hreserved : Reserved ents n
    · rw [if_pos hreserved]
      have hwhole : n / 32 < pageCountOf ents / 32 := by
        by_contra hcut
        exact hwords n hn (by omega) hreserved
      exact ⟨fun _ => by omega, fun _ => ⟨hwhole, hreserved⟩⟩
    · rw [if_neg hreserved]
      exact ⟨fun hused => absurd hused.2 hreserved, fun hpos => by omega⟩
  · intro n _ hcounted
    cases hcounted
  · intro n _ _
    exact hle n
  · intro n _
    have := hle n
    omega

theorem balanced_step (call : Call) (h : Balanced ents m.mem m.held) (hallowed : Allowed m call)
    (hstep : step m call = some m') : Balanced ents m'.mem m'.held := by
  cases call with
  | allocPhys =>
    obtain ⟨⟨r, t⟩, heq, rfl⟩ := map_eq_some_iff.mp hstep
    exact (h.allocPhys heq).1
  | refPhys pAddr =>
    obtain ⟨t, heq, rfl⟩ := map_eq_some_iff.mp hstep
    exact h.refPhys hallowed heq
  | derefPhys pAddr =>
    cases hstep
    exact h.derefPhys hallowed

/-- A frame is used iff reserved or referenced, as often as is counted; `MM_AllocPhys` returns
neither. -/
structure Ownership (ents : List PMemMapEnt) (m : Ledger) : Prop where
  used_iff : ∀ n < m.mem.pageCount, m.mem.used n = true ↔ Reserved ents n ∨ 1 ≤ m.held n
  entry : ∀ n < m.mem.pageCount, m.mem.counted n = true →
    (m.mem.pageReferences n).toInt = m.held n + if Reserved ents n then 1 else 0
  fresh : ∀ r t, mmAllocPhys m.mem = some (r, t) → r ≠ 0 →
    m.held (r / pageSize) = 0 ∧ ¬ Reserved ents (r / pageSize)

theorem ownership_of_balanced (h : Balanced ents m.mem m.held) : Ownership ents m := by
  constructor
  · intro n hn
    rw [h.used_iff n hn, count]
    split <;> simp_all
  · intro n hn hcounted
    have hbound := h.bounded n hn
    have hint : (m.mem.pageReferences n).toInt = (count ents m.held n : ℤ) := by
      rw [h.entry n hn hcounted, toInt_ofNat', Int.bmod_eq_of_le] <;> omega
    rw [hint, count]
    push_cast
    rfl
  · intro r t heq hr
    obtain ⟨-, hzero⟩ := (h.allocPhys heq).2.2.2 hr
    unfold count at hzero
    split at hzero <;> simp_all

/-- In every state that allowed calls reach from `MM_Install`, the frames are owned as the
bitmap and the counts say. -/
theorem ownership_of_run (table : Bool) (ents : List PMemMapEnt) (hwords : WholeWords ents)
    (calls : List Call) (m : Ledger) (hallowed : Along step Allowed (installed table ents) calls)
    (hrun : run step (installed table ents) calls = some m) : Ownership ents m := by
  apply ownership_of_balanced
  have hstart : Balanced ents (installed table ents).mem (installed table ents).held :=
    balanced_installed table hwords
  have hstep (m : Ledger) (call : Call) (m' : Ledger) (h : Balanced ents m.mem m.held)
      (hallowed : Allowed m call) (hm' : step m call = some m') : Balanced ents m'.mem m'.held :=
    balanced_step call h hallowed hm'
  exact (run_invariant hstep hstart hallowed hrun :)

def smallMap : List PMemMapEnt := [⟨0, 31 * 4096, .used⟩, ⟨31 * 4096, 33 * 4096, .free⟩]

/-- A reference to frame 40 makes its counts appear, a second one and an allocation follow, and
one is dropped. -/
theorem ownership_sample : ∃ m, run step (installed true smallMap)
      [.refPhys (40 * 4096), .refPhys (40 * 4096), .allocPhys, .derefPhys (40 * 4096)] = some m ∧
      Ownership smallMap m := by
  obtain ⟨m, hrun⟩ := isSome_iff_exists.mp (show (run step (installed true smallMap)
    [.refPhys (40 * 4096), .refPhys (40 * 4096), .allocPhys,
      .derefPhys (40 * 4096)]).isSome = true by decide +kernel)
  refine ⟨m, hrun, ownership_of_run true smallMap ?_ _ m (by decide +kernel) hrun⟩
  intro n hn hcut
  have hpages : pageCountOf smallMap = 64 := by decide
  omega

/-- After one reference to frame 40, frame 0 of the same block has no reference and count 1. -/
theorem reserved_frame_counts_one :
    ∃ m, run step (installed true smallMap) [.refPhys (40 * 4096)] = some m ∧
      Reserved smallMap 0 ∧ m.held 0 = 0 ∧ m.mem.counted 0 = true ∧ m.mem.pageReferences 0 = 1 := by
  have heval : (run step (installed true smallMap) [.refPhys (40 * 4096)]).map
      (fun m => (m.held 0, m.mem.counted 0, m.mem.pageReferences 0)) = some (0, true, 1) := by
    decide +kernel
  obtain ⟨m, hrun, hvalues⟩ := map_eq_some_iff.mp heval
  simp only [Prod.mk.injEq] at hvalues
  exact ⟨m, hrun, by decide, hvalues⟩

end PhysMemOwnership
