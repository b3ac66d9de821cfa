import Mathlib.Algebra.Order.BigOperators.Group.Finset
import Acess2.GuardedRuns
import Acess2.LocksModel
import Acess2.ThreadsLinks
import Acess2.ThreadsQueues

/-! Who holds a reader-writer lock.
Every acquiring call is recorded until it is released; a thread holds what its calls have
obtained, so a call that still sleeps on the lock holds nothing. `RWLock_Release` hands the
lock to the first waiting writer without looking at `Level`, so exclusion needs that the
releasing thread is the last holder whenever a writer waits. It does not need the wait
queues to be in order. -/
namespace RWLockExclusion

open Function GuardedRuns IntrusiveLists List LocksModel Option ThreadsLinks ThreadsModel
  ThreadsQueues

inductive Role where
  | reader | writer
  deriving DecidableEq

/-- The kernel around one lock, and the acquiring calls that each thread has not released yet,
the latest first. -/
structure State (T : Type) where
  kernel : Kernel T Unit
  calls : T → List Role

variable {T : Type} [DecidableEq T]

def held (s : State T) (t : T) : List Role :=
  if s.kernel.status t = .rwlockSleep then (s.calls t).tail else s.calls t

inductive Call (T : Type) where
  | acquireRead
  | acquireWrite
  | release
  | dispatch (p : Priority) (t : T)

def step [Fintype T] (s : State T) : Call T → Option (State T)
  | .acquireRead => some ⟨rwlockAcquireRead s.kernel (),
      update s.calls s.kernel.cur (.reader :: s.calls s.kernel.cur)⟩
  | .acquireWrite => some ⟨rwlockAcquireWrite s.kernel (),
      update s.calls s.kernel.cur (.writer :: s.calls s.kernel.cur)⟩
  | .release => (rwlockRelease s.kernel ()).map fun k =>
      ⟨k, update s.calls s.kernel.cur (s.calls s.kernel.cur).tail⟩
  | .dispatch p t => (dispatch s.kernel p t).map fun k => ⟨k, s.calls⟩

/-- Only a running thread calls, and only a holder releases. -/
def Legal (s : State T) : Call T → Prop
  | .acquireRead => s.kernel.status s.kernel.cur = .active
  | .acquireWrite => s.kernel.status s.kernel.cur = .active
  | .release => s.kernel.status s.kernel.cur = .active ∧ held s s.kernel.cur ≠ []
  | .dispatch _ _ => True

/-- `Level` does not overflow, and with a writer waiting the lock is released by its owner or
its last reader. -/
def Safe (s : State T) : Call T → Prop
  | .acquireRead => s.kernel.rwlockOwner () = none →
      (s.kernel.lists (.writerWaiting ())).head = none → s.kernel.rwlockLevel () + 1 < 2 ^ 31
  | .release => s.kernel.rwlockOwner () = some s.kernel.cur ∨
      (s.kernel.lists (.writerWaiting ())).head = none ∨ s.kernel.rwlockLevel () = 1
  | _ => True

/-- At most one thread holds the lock as writer, and then none holds it as reader. -/
structure Exclusive (s : State T) : Prop where
  oneWriter : ∀ t u, .writer ∈ held s t → .writer ∈ held s u → t = u
  noReader : ∀ t u, .writer ∈ held s t → .reader ∉ held s u

structure Start [Fintype T] (k : Kernel T Unit) (q : ListName Unit → List T) : Prop where
  placed : Placed k q
  unlinked : ∀ t, (∀ l, t ∉ q l) → k.next t = none
  owner : k.rwlockOwner () = none
  level : k.rwlockLevel () = 0
  awake : ∀ t, k.status t ≠ .rwlockSleep

variable [Fintype T]

def holdCount (s : State T) : ℕ := ∑ t, (held s t).length

def Dead (s : State T) : Prop := s.kernel.rwlockOwner () ≠ none ∧ ∀ t, held s t = []

structure Ordered (s : State T) : Prop where
  tidy : Tidy s.kernel
  reader : ∀ r, (s.kernel.lists (.readerWaiting ())).head = some r →
    s.kernel.status r = .rwlockSleep ∧ ∃ cs, s.calls r = .reader :: cs

structure Inv (s : State T) : Prop where
  range : s.kernel.rwlockLevel () < 2 ^ 31
  free : s.kernel.rwlockOwner () = none →
    (∀ t, .writer ∉ held s t) ∧ s.kernel.rwlockLevel () = holdCount s
  owned : ∀ w, s.kernel.rwlockOwner () = some w →
    s.kernel.rwlockLevel () = 0 ∧ (∀ t, t ≠ w → held s t = []) ∧ (held s w).length ≤ 1
  queues : Dead s ∨ Ordered s

variable {s : State T}

theorem Inv.exclusive (h : Inv s) : Exclusive s := by
  have howner : ∀ t, .writer ∈ held s t → s.kernel.rwlockOwner () = some t ∧
      (held s t).length ≤ 1 := by
    intro t ht
    cases how : s.kernel.rwlockOwner () with
    | none => exact absurd ht ((h.free how).1 t)
    | some w =>
      obtain ⟨-, hother, hlen⟩ := h.owned w how
      by_cases htw : t = w
      · subst htw; exact ⟨rfl, hlen⟩
      · simp [hother t htw] at ht
  constructor
  · intro t u ht hu
    exact some.inj ((howner t ht).1.symm.trans (howner u hu).1)
  · intro t u ht hu
    obtain ⟨how, hlen⟩ := howner t ht
    by_cases hut : u = t
    · subst hut
      -- one call cannot be both
      obtain ⟨r, hr⟩ := length_eq_one_iff.mp (Nat.le_antisymm hlen (length_pos_of_mem ht))
      rw [hr, mem_singleton] at ht hu
      exact absurd (ht.trans hu.symm) (by decide)
    · simp [(h.owned t how).2.1 u hut] at hu

variable {s' : State T}

theorem holdCount_change (t : T) (hsame : ∀ u, u ≠ t → held s' u = held s u) :
    holdCount s' + (held s t).length = holdCount s + (held s' t).length := by
  have hrest : ∑ u ∈ Finset.univ.erase t, (held s' u).length
      = ∑ u ∈ Finset.univ.erase t, (held s u).length := by
    refine Finset.sum_congr rfl fun u hu => ?_
    rw [hsame u (Finset.ne_of_mem_erase hu)]
  have hs := Finset.add_sum_erase Finset.univ (fun u => (held s u).length) (Finset.mem_univ t)
  have hs' := Finset.add_sum_erase Finset.univ (fun u => (held s' u).length) (Finset.mem_univ t)
  simp only [holdCount]
  omega

omit [DecidableEq T] in
theorem held_nil_of_count (h : holdCount s = 0) (t : T) : held s t = [] := by
  rw [holdCount, Finset.sum_eq_zero_iff] at h
  exact length_eq_zero_iff.mp (h t (Finset.mem_univ t))

omit [DecidableEq T] in
theorem Inv.of_same (h : Inv s) (howner : s'.kernel.rwlockOwner () = s.kernel.rwlockOwner ())
    (hlevel : s'.kernel.rwlockLevel () = s.kernel.rwlockLevel ())
    (hheld : ∀ t, held s' t = held s t) (hord : Ordered s → Ordered s') : Inv s' := by
  have hcount : holdCount s' = holdCount s := by simp only [holdCount, hheld]
  constructor
  · rw [hlevel]; exact h.range
  · rw [howner, hlevel, hcount]
    simpa only [hheld] using h.free
  · rw [howner, hlevel]
    simpa only [hheld] using h.owned
  · rcases h.queues with hdead | hqueues
    · exact .inl ⟨by rw [howner]; exact hdead.1, fun t => by rw [hheld]; exact hdead.2 t⟩
    · exact .inr (hord hqueues)

theorem Inv.of_reader {t : T}
    (hfree : (∀ u, .writer ∉ held s u) ∧ s.kernel.rwlockLevel () = holdCount s)
    (hrange : s.kernel.rwlockLevel () + 1 < 2 ^ 31) (howner : s'.kernel.rwlockOwner () = none)
    (hlevel : s'.kernel.rwlockLevel () = s.kernel.rwlockLevel () + 1)
    (hother : ∀ u, u ≠ t → held s' u = held s u) (hnew : held s' t = .reader :: held s t)
    (hord : Ordered s') : Inv s' := by
  have hcount := holdCount_change t hother
  rw [hnew, length_cons] at hcount
  refine ⟨hlevel ▸ hrange, fun _ => ⟨fun u hu => ?_, by rw [hlevel, hfree.2]; omega⟩,
    by simp [howner], .inr hord⟩
  by_cases hut : u = t
  · subst hut
    exact hfree.1 u (by simpa [hnew] using hu)
  · exact hfree.1 u (hother u hut ▸ hu)

omit [DecidableEq T] [Fintype T] in
theorem Ordered.reader_ne_cur (h : Ordered s)
    (hcur : s.kernel.status s.kernel.cur = .active) {r : T}
    (hr : (s.kernel.lists (.readerWaiting ())).head = some r) : r ≠ s.kernel.cur := by
  rintro rfl
  have hst := (h.reader _ hr).1
  cases hcur.symm.trans hst

omit [DecidableEq T] [Fintype T] in
theorem Ordered.of_calls (h : Ordered s) (hact : s.kernel.status s.kernel.cur = .active)
    (hlinks : links s'.kernel = links s.kernel) (hstatus : s'.kernel.status = s.kernel.status)
    (hcur : s'.kernel.cur = s.kernel.cur)
    (hcalls : ∀ u, u ≠ s.kernel.cur → s'.calls u = s.calls u) : Ordered s' := by
  refine ⟨⟨by rw [hlinks]; exact h.tidy.solo, ?_⟩, ?_⟩
  · rw [hlinks, hstatus, hcur]
    exact h.tidy.running
  · intro u hu
    have hu' : (s.kernel.lists (.readerWaiting ())).head = some u := by
      rw [← links_inl, ← hlinks]
      exact hu
    rw [hstatus, hcalls u (h.reader_ne_cur hact hu')]
    exact h.reader u hu'

section Acquire

variable (h : Inv s) (hcur : s.kernel.status s.kernel.cur = .active)
include h hcur

theorem sleep_inv {l : ListName Unit} {r : Role}
    (hl : l = .readerWaiting () ∧ r = .reader ∨ l = .writerWaiting ()) :
    Inv ⟨threadsIntSleep s.kernel .rwlockSleep (some ()) 0 (.queue l),
      update s.calls s.kernel.cur (r :: s.calls s.kernel.cur)⟩ := by
  obtain ⟨a, n, e, heq, hlinks, hhead⟩ := threadsIntSleep_links s.kernel .rwlockSleep (some ()) 0 l
  refine h.of_same (by rw [heq]) (by rw [heq]) ?held fun hord => ⟨⟨?solo, ?running⟩, ?reader⟩
  case held =>
    intro t
    by_cases ht : t = s.kernel.cur
    · simp [held, heq, ht, hcur]
    · simp [held, heq, ht]
  case solo =>
    rw [hlinks]
    exact (hord.tidy.solo.clear _).point ((hord.tidy.running hcur).clear _) a
  case running =>
    intro hact
    simp [heq] at hact
  case reader =>
    intro u hu
    have hu' : (s.kernel.lists (.readerWaiting ())).head = some u ∨
        (u = s.kernel.cur ∧ r = .reader) := by
      rw [heq] at hu
      rcases hl with ⟨rfl, hr⟩ | rfl
      · rcases hhead with hhead | hhead
        · exact .inl (by simpa [hhead] using hu)
        · exact .inr ⟨by simpa [hhead, eq_comm] using hu, hr⟩
      · exact .inl (by simpa using hu)
    rcases hu' with hu' | ⟨rfl, rfl⟩
    · obtain ⟨hst, cs, hcs⟩ := hord.reader u hu'
      have huc : u ≠ s.kernel.cur := hord.reader_ne_cur hcur hu'
      exact ⟨by simpa [heq, huc] using hst, cs, by simpa [huc] using hcs⟩
    · exact ⟨by simp [heq], s.calls s.kernel.cur, by simp⟩

theorem acquireRead_inv (hsafe : Safe s .acquireRead) : Inv ⟨rwlockAcquireRead s.kernel (),
      update s.calls s.kernel.cur (.reader :: s.calls s.kernel.cur)⟩ := by
  rw [rwlockAcquireRead]
  split_ifs with hbusy
  · exact sleep_inv h hcur (.inl ⟨rfl, rfl⟩)
  obtain ⟨howner, hwriter⟩ : s.kernel.rwlockOwner () = none ∧
      (s.kernel.lists (.writerWaiting ())).head = none := by
    simpa only [not_or, not_not] using hbusy
  have hlevel := (h.free howner).2
  have hfit := hsafe howner hwriter
  have hwrap : wrap32 (s.kernel.rwlockLevel () + 1) = s.kernel.rwlockLevel () + 1 :=
    wrap32_eq (by omega) hfit
  have hord := h.queues.resolve_left fun hdead => hdead.1 howner
  rw [hwrap]
  refine Inv.of_reader (t := s.kernel.cur) (h.free howner) hfit howner ?level ?other ?new
    (hord.of_calls hcur rfl rfl rfl fun u hu => update_of_ne hu _ _)
  case level => simp [setLevel]
  case other => exact fun t ht => by simp [held, setLevel, ht]
  case new => simp [held, setLevel, hcur]

theorem acquireWrite_inv : Inv ⟨rwlockAcquireWrite s.kernel (),
      update s.calls s.kernel.cur (.writer :: s.calls s.kernel.cur)⟩ := by
  rw [rwlockAcquireWrite]
  split_ifs with hbusy
  · exact sleep_inv h hcur (.inr rfl)
  obtain ⟨howner, hzero⟩ : s.kernel.rwlockOwner () = none ∧ s.kernel.rwlockLevel () = 0 := by
    simpa only [not_or, not_not] using hbusy
  obtain ⟨-, hlevel⟩ := h.free howner
  have hnil := held_nil_of_count (s := s) (by omega)
  have hcalls : s.calls s.kernel.cur = [] := by simpa [held, hcur] using hnil s.kernel.cur
  generalize hs' : (⟨setOwner s.kernel () (some s.kernel.cur),
    update s.calls s.kernel.cur (.writer :: s.calls s.kernel.cur)⟩ : State T) = s'
  have howner' : s'.kernel.rwlockOwner () = some s.kernel.cur := by simp [← hs', setOwner]
  constructor
  · simp [← hs', setOwner, hzero]
  · intro hnone
    cases howner'.symm.trans hnone
  · intro w hw
    obtain rfl : s.kernel.cur = w := by simpa [howner'] using hw
    refine ⟨by simp [← hs', setOwner, hzero], fun t ht => ?_, ?_⟩
    · rw [← hnil t]
      simp [← hs', held, setOwner, ht]
    · simp [← hs', held, setOwner, hcur, hcalls]
  · have hord := h.queues.resolve_left fun hdead => hdead.1 howner
    exact .inr (hs' ▸ hord.of_calls hcur rfl rfl rfl fun u hu => update_of_ne hu _ _)

end Acquire

/-- The first lines of `RWLock_Release` -/
def dropped (s : State T) : State T :=
  ⟨if s.kernel.rwlockOwner () ≠ some s.kernel.cur then
      setLevel s.kernel () (wrap32 (s.kernel.rwlockLevel () - 1)) else s.kernel,
    update s.calls s.kernel.cur (s.calls s.kernel.cur).tail⟩

omit [Fintype T] in
theorem dropped_frame (s : State T) : (dropped s).kernel.status = s.kernel.status ∧
    (dropped s).kernel.cur = s.kernel.cur ∧ (dropped s).kernel.lists = s.kernel.lists ∧
    (dropped s).kernel.next = s.kernel.next := by
  simp only [dropped]
  split_ifs <;> exact ⟨rfl, rfl, rfl, rfl⟩

/-- `Level` counts the holds left, all readers; none after the owner or the last reader. -/
theorem dropped_spec (h : Inv s) (hcur : s.kernel.status s.kernel.cur = .active)
    (hheld : held s s.kernel.cur ≠ []) :
    (dropped s).kernel.rwlockLevel () = holdCount (dropped s) ∧
      (dropped s).kernel.rwlockLevel () + 1 < 2 ^ 31 ∧ (∀ t, .writer ∉ held (dropped s) t) ∧
      Ordered (dropped s) ∧
      (s.kernel.rwlockOwner () = some s.kernel.cur ∨ s.kernel.rwlockLevel () = 1 →
        holdCount (dropped s) = 0) := by
  obtain ⟨hstatus, hcur', hlists, hnext⟩ := dropped_frame s
  have hlinks : links (dropped s).kernel = links s.kernel := by simp only [links, hlists, hnext]
  have hcalls : (dropped s).calls = update s.calls s.kernel.cur (s.calls s.kernel.cur).tail := rfl
  have hother : ∀ t, t ≠ s.kernel.cur → held (dropped s) t = held s t := by
    intro t ht
    simp only [held, hstatus, hcalls, update_of_ne ht]
  have hnew : held (dropped s) s.kernel.cur = (held s s.kernel.cur).tail := by
    simp [held, hstatus, hcur, hcalls]
  have hcount := holdCount_change s.kernel.cur hother
  rw [hnew, length_tail] at hcount
  have hpos : 0 < (held s s.kernel.cur).length := length_pos_iff.mpr hheld
  have hord := (h.queues.resolve_left fun hdead => hheld (hdead.2 _)).of_calls hcur hlinks hstatus
    hcur' fun u hu => update_of_ne hu _ _
  have hsub : ∀ t, ∀ r ∈ held (dropped s) t, r ∈ held s t := by
    intro t r hr
    by_cases ht : t = s.kernel.cur
    · subst ht
      rw [hnew] at hr
      exact mem_of_mem_tail hr
    · rwa [hother t ht] at hr
  cases howner : s.kernel.rwlockOwner () with
  | none =>
    obtain ⟨hnowriter, hlevel⟩ := h.free howner
    have hrange := h.range
    have hdown : (dropped s).kernel.rwlockLevel () = s.kernel.rwlockLevel () - 1 := by
      simp only [dropped, howner, ne_eq, reduceCtorEq, not_false_eq_true, if_true, setLevel,
        update_self]
      exact wrap32_eq (by omega) (by omega)
    refine ⟨by rw [hdown]; omega, by rw [hdown]; omega,
      fun t ht => hnowriter t (hsub t _ ht), hord, ?_⟩
    rintro (hcur' | hone)
    · cases hcur'
    · omega
  | some w =>
    obtain ⟨hlevel, hrest, hlen⟩ := h.owned w howner
    obtain rfl : s.kernel.cur = w := by
      by_contra hne
      exact hheld (hrest _ hne)
    have hnil : ∀ t, held (dropped s) t = [] := by
      intro t
      by_cases ht : t = s.kernel.cur
      · subst ht
        rw [hnew, ← length_eq_zero_iff, length_tail]
        omega
      · rw [hother t ht]
        exact hrest t ht
    have hzero : holdCount (dropped s) = 0 := by simp [holdCount, hnil]
    have hlevel' : (dropped s).kernel.rwlockLevel () = 0 := by simp [dropped, howner, hlevel]
    refine ⟨by rw [hlevel', hzero]; rfl, by rw [hlevel']; decide, ?_, hord, fun _ => hzero⟩
    intro t ht
    simp [hnil t] at ht

variable {d : State T}

/-- The lock goes to a waiting writer when nobody holds it any more. -/
theorem handOver_inv {w : T} {k₁ k' : Kernel T Unit} (hord : Ordered d)
    (hcur : d.kernel.status d.kernel.cur = .active) (hlevel : d.kernel.rwlockLevel () = 0)
    (hnil : ∀ t, held d t = []) (hw : (d.kernel.lists (.writerWaiting ())).head = some w)
    (hk₁ : k₁ = setHead (setOwner d.kernel () (some w)) (.writerWaiting ()) (d.kernel.next w))
    (hk' : (if k₁.status w ≠ .active then threadsAddActive k₁ w else some k₁) = some k') :
    Inv ⟨k', d.calls⟩ := by
  have hstatus₁ : k₁.status = d.kernel.status := by rw [hk₁]; rfl
  have howner₁ : k₁.rwlockOwner () = some w := by simp [hk₁, setHead, setOwner, Kernel.setList]
  have hlevel₁ : k₁.rwlockLevel () = 0 := by rw [hk₁]; exact hlevel
  have hlinks₁ : links k₁ = update (links d.kernel) (.inl (.writerWaiting ()))
      (d.kernel.next w) := by
    rw [hk₁]
    exact links_setList (setOwner d.kernel () (some w)) _ _
  have hcur₁ : k₁.cur = d.kernel.cur := by rw [hk₁]; rfl
  have hlists₁ : (k₁.lists (.readerWaiting ())).head =
      (d.kernel.lists (.readerWaiting ())).head := by
    simp [hk₁, setHead, setOwner, Kernel.setList]
  split_ifs at hk' with hact
  · -- the writer sleeps: it is woken and holds what it asked for
    have hwc : w ≠ d.kernel.cur := by
      rintro rfl
      rw [hstatus₁] at hact
      exact hact hcur
    obtain ⟨-, a, n, L, heq, hlinks, -, hlists⟩ := threadsAddActive_links hk' (hcur₁ ▸ hwc)
    have hstatus : k'.status = update d.kernel.status w .active := by rw [heq, hstatus₁]
    have howner : k'.rwlockOwner () = some w := by rw [heq]; exact howner₁
    have hlevel' : k'.rwlockLevel () = 0 := by rw [heq]; exact hlevel₁
    have hcur' : k'.cur = d.kernel.cur := by rw [heq]; exact hcur₁
    have hreader : (k'.lists (.readerWaiting ())).head
        = (d.kernel.lists (.readerWaiting ())).head := by
      rw [heq, ← hlists₁]
      exact congrArg Ends.head (hlists _ (by simp))
    rw [hlinks₁] at hlinks
    have hhead : links d.kernel (.inl (.writerWaiting ())) = some w := hw
    obtain ⟨hsolo, hkeep⟩ := hord.tidy.solo.requeue (c := .inr w) hhead (by simp) a
    refine ⟨?range, ?free, ?owned, .inr ⟨⟨?solo, ?running⟩, ?reader⟩⟩
    case range => simp [hlevel']
    case free => simp [howner]
    case owned =>
      intro u hu
      obtain rfl : w = u := by simpa [howner] using hu
      refine ⟨hlevel', fun t ht => ?_, ?_⟩
      · rw [← hnil t]
        simp [held, hstatus, ht]
      · have hwnil := hnil w
        simp only [held, hstatus, update_self] at hwnil ⊢
        split_ifs at hwnil with hsleep
        · rw [← length_eq_zero_iff, length_tail] at hwnil
          simp only [reduceCtorEq, if_false]
          omega
        · simp [hwnil]
    case solo =>
      rw [hlinks]
      exact hsolo
    case running =>
      intro _
      rw [hlinks, hcur']
      exact hkeep _ hwc.symm (hord.tidy.running hcur)
    case reader =>
      intro u hu
      rw [hreader] at hu
      have huw : u ≠ w := by
        rintro rfl
        have := hord.tidy.solo (.inl (.readerWaiting ())) (.inl (.writerWaiting ())) u hu hw
        simp at this
      simpa [hstatus, huw] using hord.reader u hu
  · -- a writer that is awake is not waiting for the lock: nobody will ever hold it again
    cases hk'
    have hheld : ∀ t, held ⟨k₁, d.calls⟩ t = [] := by
      intro t
      rw [← hnil t]
      simp [held, hstatus₁]
    refine ⟨?range, ?free, ?owned, .inl ⟨?dead, hheld⟩⟩
    case range => simp [hlevel₁]
    case free => simp [howner₁]
    case owned => exact fun u _ => ⟨hlevel₁, fun t _ => hheld t, by simp [hheld]⟩
    case dead => simp [howner₁]

theorem wakeReaders_one {k k' : Kernel T Unit} {r : T}
    (hhead : (k.lists (.readerWaiting ())).head = some r) (hr : r ≠ k.cur)
    (hk' : wakeReaders () (walkFuel T) k = some k') :
    ∃ k₂, threadsAddActive (setLevel k () (wrap32 (k.rwlockLevel () + 1))) r = some k₂ ∧
      k' = setHead k₂ (.readerWaiting ()) none := by
  obtain ⟨m, hm⟩ : ∃ m, walkFuel T = m + 2 :=
    Nat.exists_eq_add_of_le' (Nat.succ_le_succ (Fintype.card_pos_iff.mpr ⟨k.cur⟩))
  rw [hm, wakeReaders] at hk'
  simp only [hhead] at hk'
  obtain ⟨k₂, hwake, hk'⟩ := bind_eq_some_iff.mp hk'
  obtain ⟨-, a, n, L, -, hlinks, -, -⟩ := threadsAddActive_links hwake hr
  have hnext : k₂.next r = none := by
    rw [← links_inr, hlinks, update_self]
  refine ⟨k₂, hwake, ?_⟩
  simpa [wakeReaders, hnext, setHead, Kernel.setList, eq_comm] using hk'

theorem wakeReaders_inv {k' : Kernel T Unit} (hord : Ordered d)
    (hcur : d.kernel.status d.kernel.cur = .active)
    (hlevel : d.kernel.rwlockLevel () = holdCount d)
    (hrange : d.kernel.rwlockLevel () + 1 < 2 ^ 31) (hnowriter : ∀ t, .writer ∉ held d t)
    (hk' : wakeReaders () (walkFuel T) (setOwner d.kernel () none) = some k') :
    Inv ⟨k', d.calls⟩ := by
  cases hhead : (d.kernel.lists (.readerWaiting ())).head with
  | none =>
    rw [walkFuel, wakeReaders] at hk'
    simp only [setOwner, hhead, some.injEq] at hk'
    subst hk'
    refine ⟨?range, fun _ => ⟨hnowriter, hlevel⟩, ?owned,
      .inr ⟨⟨hord.tidy.solo, hord.tidy.running⟩, hord.reader⟩⟩
    case range => exact lt_trans (by simp) hrange
    case owned => simp
  | some r =>
    obtain ⟨hsleep, cs, hcs⟩ := hord.reader r hhead
    have hrc : r ≠ d.kernel.cur := hord.reader_ne_cur hcur hhead
    have hwrap : wrap32 (d.kernel.rwlockLevel () + 1) = d.kernel.rwlockLevel () + 1 :=
      wrap32_eq (by omega) hrange
    obtain ⟨k₂, hwake, hend⟩ := wakeReaders_one (k := setOwner d.kernel () none) hhead hrc hk'
    generalize hk₁ : setLevel (setOwner d.kernel () none) ()
      (wrap32 ((setOwner d.kernel () none).rwlockLevel () + 1)) = k₁ at hwake
    have hcur₁ : k₁.cur = d.kernel.cur := by rw [← hk₁]; rfl
    have hstatus₁ : k₁.status = d.kernel.status := by rw [← hk₁]; rfl
    have howner₁ : k₁.rwlockOwner () = none := by simp [← hk₁, setLevel, setOwner]
    have hlevel₁ : k₁.rwlockLevel () = d.kernel.rwlockLevel () + 1 := by
      rw [← hwrap, ← hk₁]
      simp [setLevel, setOwner]
    have hlinks₁ : links k₁ = links d.kernel := by rw [← hk₁]; rfl
    obtain ⟨-, a, n, L, heq, hlinks₂, hplace, -⟩ := threadsAddActive_links hwake (hcur₁ ▸ hrc)
    have hstatus : k'.status = update d.kernel.status r .active := by
      rw [hend, ← hstatus₁]
      exact congrArg Kernel.status heq
    have hcur' : k'.cur = d.kernel.cur := by
      rw [hend, ← hcur₁]
      exact (by rw [heq] : k₂.cur = k₁.cur)
    have howner : k'.rwlockOwner () = none := by
      rw [hend, ← howner₁]
      exact congrFun (congrArg Kernel.rwlockOwner heq) ()
    have hlevel' : k'.rwlockLevel () = d.kernel.rwlockLevel () + 1 := by
      rw [hend, ← hlevel₁]
      exact congrFun (congrArg Kernel.rwlockLevel heq) ()
    -- the head of the readers' queue was the only pointer at the reader
    have hlinks : links k' = update (update (update (links d.kernel)
        (.inl (.readerWaiting ())) none) a (some r)) (.inr r) none := by
      have ha : a ≠ .inl (.readerWaiting ()) := by
        intro ha
        obtain ⟨p, hp⟩ := hplace _ ha
        cases hp
      rw [hend, setHead, links_setList, hlinks₂, hlinks₁, update_comm ha.symm,
        update_comm (Sum.inr_ne_inl (b := r))]
    have hpointer : links d.kernel (.inl (.readerWaiting ())) = some r := hhead
    have hfree := hord.tidy.solo.unpointed hpointer
    refine Inv.of_reader (t := r) ⟨hnowriter, hlevel⟩ hrange howner hlevel' ?other ?new
      ⟨⟨?solo, ?running⟩, ?reader⟩
    case other => exact fun t ht => by simp [held, hstatus, ht]
    case new => simp [held, hstatus, hsleep, hcs]
    case solo =>
      rw [hlinks]
      exact ((hord.tidy.solo.clear _).point hfree a).clear _
    case running =>
      intro _
      rw [hlinks, hcur']
      exact (((hord.tidy.running hcur).clear _).point hrc.symm a).clear _
    case reader =>
      intro u hu
      simp [hend, setHead, Kernel.setList] at hu

theorem rwlockRelease_dropped (s : State T) : rwlockRelease s.kernel () =
    match ((dropped s).kernel.lists (.writerWaiting ())).head with
    | some owner =>
      let k := setHead (setOwner (dropped s).kernel () (some owner)) (.writerWaiting ())
        ((dropped s).kernel.next owner)
      if k.status owner ≠ .active then threadsAddActive k owner else some k
    | none => wakeReaders () (walkFuel T) (setOwner (dropped s).kernel () none) := rfl

theorem release_inv {k' : Kernel T Unit} (h : Inv s) (hcur : s.kernel.status s.kernel.cur = .active)
    (hheld : held s s.kernel.cur ≠ []) (hsafe : Safe s .release)
    (hk' : rwlockRelease s.kernel () = some k') :
    Inv ⟨k', update s.calls s.kernel.cur (s.calls s.kernel.cur).tail⟩ := by
  obtain ⟨hlevel, hrange, hnowriter, hord, hlast⟩ := dropped_spec h hcur hheld
  obtain ⟨hstatus, hcur', hlists, -⟩ := dropped_frame s
  have hact : (dropped s).kernel.status (dropped s).kernel.cur = .active := by
    rw [hstatus, hcur', hcur]
  rw [rwlockRelease_dropped] at hk'
  split at hk'
  · rename_i w hw
    have hzero : holdCount (dropped s) = 0 := by
      refine hlast ?_
      rcases hsafe with hown | hnone | hone
      · exact .inl hown
      · rw [hlists, hnone] at hw
        cases hw
      · exact .inr hone
    exact handOver_inv hord hact (by rw [hlevel, hzero]; rfl) (held_nil_of_count hzero) hw rfl hk'
  · exact wakeReaders_inv hord hact hlevel hrange hnowriter hk'

theorem dispatch_inv {p : Priority} {t : T} {k' : Kernel T Unit} (h : Inv s)
    (hk' : dispatch s.kernel p t = some k') : Inv ⟨k', s.calls⟩ := by
  obtain ⟨htidy, n, L, heq, hlists⟩ := dispatch_links hk'
  have hreader : k'.lists (.readerWaiting ()) = s.kernel.lists (.readerWaiting ()) := by
    rw [heq]
    exact hlists _ (by simp)
  have hstatus : k'.status = s.kernel.status := by rw [heq]
  refine h.of_same (by rw [heq]) (by rw [heq]) (fun u => by simp [held, hstatus]) fun hord => ?_
  refine ⟨htidy hord.tidy, fun r hr => ?_⟩
  rw [hreader] at hr
  rw [hstatus]
  exact hord.reader r hr

theorem step_inv (s : State T) (c : Call T) (s' : State T) (h : Inv s)
    (hc : Legal s c ∧ Safe s c) (hs' : step s c = some s') : Inv s' := by
  obtain ⟨hlegal, hsafe⟩ := hc
  cases c with
  | acquireRead =>
    cases hs'
    exact acquireRead_inv h hlegal hsafe
  | acquireWrite =>
    cases hs'
    exact acquireWrite_inv h hlegal
  | release =>
    obtain ⟨k', hk', rfl⟩ := map_eq_some_iff.mp hs'
    exact release_inv h hlegal.1 hlegal.2 hsafe hk'
  | dispatch p t =>
    obtain ⟨k', hk', rfl⟩ := map_eq_some_iff.mp hs'
    exact dispatch_inv h hk'

omit [DecidableEq T] in
theorem Start.inv {k : Kernel T Unit} {q : ListName Unit → List T} (h : Start k q) :
    Inv ⟨k, fun _ => []⟩ := by
  have hheld : ∀ t, held ⟨k, fun _ => []⟩ t = [] := by simp [held]
  refine ⟨by simp [h.level], fun _ => ⟨by simp [hheld], by simp [h.level, holdCount, hheld]⟩,
    by simp [h.owner], .inr ⟨⟨h.placed.holds.solo h.unlinked, ?_⟩, ?_⟩⟩
  · exact fun hact => h.placed.holds.unpointed h.unlinked fun l => h.placed.cur_off hact
  · intro r hr
    obtain ⟨rs, hq⟩ := h.placed.holds.head_cons hr
    have hmem : r ∈ q (.readerWaiting ()) := by simp [hq]
    exact absurd (h.placed.kind hmem) (h.awake r)

/-- Where `Level` does not overflow and the lock, with a writer waiting, is released last by its
owner or last reader, readers and writers exclude each other. -/
theorem rwlock_excludes_when_released_last {k : Kernel T Unit} {q : ListName Unit → List T}
    (hk : Start k q) {cs : List (Call T)} {s : State T}
    (hcs : Along step (fun s c => Legal s c ∧ Safe s c) ⟨k, fun _ => []⟩ cs)
    (hs : run step ⟨k, fun _ => []⟩ cs = some s) : Exclusive s :=
  (run_invariant step_inv hk.inv hcs hs).exclusive

instance (s : State T) : DecidablePred (Legal s) := fun c => by
  cases c <;> dsimp only [Legal] <;> infer_instance

instance (s : State T) : DecidablePred (Safe s) := fun c => by
  cases c <;> dsimp only [Safe] <;> infer_instance

theorem ready_start {cur : T} {xs : List T} (lock : T → Unit) (hcur : cur ∉ xs)
    (hn : xs.Nodup) : Start (ready lock cur xs) (readyLists xs) := by
  refine ⟨ready_placed lock hcur hn, fun t ht => ?_, rfl, rfl, fun t => ?_⟩
  · exact linksOf_notMem (by simpa [readyLists] using ht (.activeThreads 0))
  · simp only [ready]
    split_ifs <;> simp

def threeReady : State (Fin 3) := ⟨ready (fun _ => ()) 0 [1, 2], fun _ => []⟩

def lastReaderCalls : List (Call (Fin 3)) :=
  [.acquireRead, .dispatch 0 1, .acquireRead, .release, .dispatch 0 2, .acquireWrite,
    .dispatch 0 0, .release, .dispatch 0 1, .dispatch 0 2]

theorem rwlock_excludes_sample : ∃ s, Start threeReady.kernel (readyLists [1, 2]) ∧
      Along step (fun s c => Legal s c ∧ Safe s c) threeReady lastReaderCalls ∧
      run step threeReady lastReaderCalls = some s ∧ .writer ∈ held s 2 ∧ Exclusive s := by
  have hstart : Start threeReady.kernel (readyLists [1, 2]) := ready_start _ (by decide) (by decide)
  have halong : Along step (fun s c => Legal s c ∧ Safe s c) threeReady lastReaderCalls := by
    decide +kernel
  have hrun : (run step threeReady lastReaderCalls).map (fun s => decide (.writer ∈ held s 2))
      = some true := by
    decide +kernel
  obtain ⟨s, hs, hheld⟩ := map_eq_some_iff.mp hrun
  exact ⟨s, hstart, halong, hs, of_decide_eq_true hheld,
    rwlock_excludes_when_released_last hstart halong hs⟩

def earlyReleaseCalls : List (Call (Fin 3)) :=
  [.acquireRead, .dispatch 0 1, .acquireRead, .dispatch 0 2, .acquireWrite, .dispatch 0 0, .release]

theorem early_release_breaks_exclusion : ∃ s, Start threeReady.kernel (readyLists [1, 2]) ∧
      Along step Legal threeReady earlyReleaseCalls ∧
      run step threeReady earlyReleaseCalls = some s ∧
      .writer ∈ held s 2 ∧ .reader ∈ held s 1 ∧ ¬ Exclusive s := by
  have halong : Along step Legal threeReady earlyReleaseCalls := by decide +kernel
  have hrun : (run step threeReady earlyReleaseCalls).map (fun s =>
      (decide (.writer ∈ held s 2), decide (.reader ∈ held s 1))) = some (true, true) := by
    decide +kernel
  obtain ⟨s, hs, hheld⟩ := map_eq_some_iff.mp hrun
  obtain ⟨hw, hr⟩ := Prod.mk.inj hheld
  have hw' := of_decide_eq_true hw
  have hr' := of_decide_eq_true hr
  exact ⟨s, ready_start _ (by decide) (by decide), halong, hs, hw', hr',
    fun hex => hex.noReader 2 1 hw' hr'⟩

end RWLockExclusion
