import Acess2.RWLockExclusion

/-! Who waits for a reader-writer lock.
`RWLock_Release` moves a wait queue's head and never its tail, and it reads the link to the
next reader after `Threads_AddActive` has cleared it. The queues therefore stay in order
exactly as long as no release takes the last waiting writer or any waiting reader. -/
namespace RWLockWaiters

open Function GuardedRuns IntrusiveLists List LocksModel Option ThreadsLinks ThreadsModel
  ThreadsQueues
open RWLockExclusion (State Call step)

variable {T : Type} [DecidableEq T] [Fintype T]

def Running (s : State T) : Call T → Prop
  | .dispatch p t => s.kernel.status t = .active ∧ p = s.kernel.priority t
  | _ => s.kernel.status s.kernel.cur = .active

/-- A release finds two waiting writers or more, or nobody waiting. -/
def Kept (s : State T) : Call T → Prop
  | .release =>
    (∃ w ∈ (s.kernel.lists (.writerWaiting ())).head, s.kernel.next w ≠ none) ∨
      ((s.kernel.lists (.writerWaiting ())).head = none ∧
        (s.kernel.lists (.readerWaiting ())).head = none)
  | _ => True

/-- The sleepers are linked from the two heads, with right tails, and nobody sleeps on a free lock.
-/
structure NoLostWaiter (k : Kernel T Unit) (readers writers : List T) : Prop where
  fromReaders : Linked k.next (k.lists (.readerWaiting ())).head readers
  fromWriters : Linked k.next (k.lists (.writerWaiting ())).head writers
  readersLast : (k.lists (.readerWaiting ())).tail = readers.getLast?
  writersLast : (k.lists (.writerWaiting ())).tail = writers.getLast?
  asleep : ∀ t, k.status t = .rwlockSleep → t ∈ readers ∨ t ∈ writers
  free : k.rwlockOwner () = none → k.rwlockLevel () = 0 → ∀ t, k.status t ≠ .rwlockSleep

/-- The lists are in order, hold the sleepers, and these wait for an owner or, behind a writer,
for the readers. -/
structure Inv (k : Kernel T Unit) (q : ListName Unit → List T) : Prop where
  placed : Placed k q
  asleep : ∀ t, k.status t = .rwlockSleep → t ∈ q (.readerWaiting ()) ∨ t ∈ q (.writerWaiting ())
  blocked : ∀ t, k.status t = .rwlockSleep → k.rwlockOwner () ≠ none ∨
    (k.rwlockLevel () ≠ 0 ∧ q (.writerWaiting ()) ≠ [])

variable {k : Kernel T Unit} {q : ListName Unit → List T}

omit [DecidableEq T] in
theorem Inv.noLostWaiter (h : Inv k q) :
    NoLostWaiter k (q (.readerWaiting ())) (q (.writerWaiting ())) := by
  refine ⟨h.placed.holds.linked _, h.placed.holds.linked _, h.placed.waitTail trivial,
    h.placed.waitTail trivial, h.asleep, fun howner hlevel t ht => ?_⟩
  rcases h.blocked t ht with hne | ⟨hne, -⟩
  · exact hne howner
  · exact hne hlevel

variable {l : ListName Unit} {s : State T}

section

variable (h : Inv k q) (hcur : k.status k.cur = .active)
include h hcur

theorem sleep_inv (hl : l = .readerWaiting () ∨ l = .writerWaiting ())
    (hbusy : k.rwlockOwner () ≠ none ∨
      (k.rwlockLevel () ≠ 0 ∧ (l = .readerWaiting () → q (.writerWaiting ()) ≠ []))) :
    Inv (threadsIntSleep k .rwlockSleep (some ()) 0 (.queue l)) (update q l (q l ++ [k.cur])) := by
  have hwait : IsWait l := by rcases hl with rfl | rfl <;> trivial
  have hst : l.status = .rwlockSleep := by rcases hl with rfl | rfl <;> rfl
  obtain ⟨n, e, heq, hplaced⟩ := threadsIntSleep_queue (some ()) 0 h.placed hwait hcur
  rw [hst] at heq hplaced
  have hmem {l' t} (ht : t ∈ q l') : t ∈ update q l (q l ++ [k.cur]) l' :=
    mem_update_concat.mpr (.inl ht)
  have hnew : k.cur ∈ update q l (q l ++ [k.cur]) l := by simp
  rw [heq]
  refine ⟨hplaced.frame rfl, fun t ht => ?_, fun t ht => ?_⟩
  · by_cases htc : t = k.cur
    · subst htc
      rcases hl with rfl | rfl
      · exact .inl hnew
      · exact .inr hnew
    · have ht' : k.status t = .rwlockSleep := by simpa [htc] using ht
      exact (h.asleep t ht').imp hmem hmem
  · rcases hbusy with hne | ⟨hne, hq⟩
    · exact .inl hne
    · refine .inr ⟨hne, ?_⟩
      rcases hl with rfl | rfl
      · simpa using hq rfl
      · simp

theorem acquireRead_inv : ∃ q', Inv (rwlockAcquireRead k ()) q' := by
  rw [rwlockAcquireRead]
  split_ifs with hbusy
  · refine ⟨_, sleep_inv h hcur (.inl rfl) ?_⟩
    rcases hbusy with howner | hwriter
    · exact .inl howner
    -- a writer is waiting already, so the lock is not free
    obtain ⟨w, hw⟩ := ne_none_iff_exists'.mp hwriter
    obtain ⟨ws, hq⟩ := h.placed.holds.head_cons hw
    have hmem : w ∈ q (.writerWaiting ()) := by simp [hq]
    rcases h.blocked w (h.placed.kind hmem) with hne | ⟨hne, hq⟩
    · exact .inl hne
    · exact .inr ⟨hne, fun _ => hq⟩
  · obtain ⟨howner, hwriter⟩ : k.rwlockOwner () = none ∧
        (k.lists (.writerWaiting ())).head = none := by
      simpa only [not_or, not_not] using hbusy
    rw [h.placed.holds.head_eq, head?_eq_none_iff] at hwriter
    have hnone : ∀ t, k.status t ≠ .rwlockSleep := fun t ht =>
      (h.blocked t ht).elim (fun hne => hne howner) fun hne => hne.2 hwriter
    exact ⟨q, h.placed.frame rfl, h.asleep, fun t ht => absurd ht (hnone t)⟩

theorem acquireWrite_inv : ∃ q', Inv (rwlockAcquireWrite k ()) q' := by
  rw [rwlockAcquireWrite]
  split_ifs with hbusy
  · refine ⟨_, sleep_inv h hcur (.inr rfl) (hbusy.imp_right fun hne => ⟨hne, ?_⟩)⟩
    intro hl
    cases hl
  · refine ⟨q, h.placed.frame rfl, h.asleep, fun t ht => .inl ?_⟩
    simp [setOwner]

end

theorem dispatch_inv {t : T} (h : Inv k q) (ht : k.status t = .active) :
    ∃ k' q', dispatch k (k.priority t) t = some k' ∧ Inv k' q' := by
  obtain ⟨n, L, q', heq, hplaced, hother⟩ := dispatch_spec h.placed ht
  refine ⟨_, q', heq, hplaced, ?_, ?_⟩
  · rw [(hother (.readerWaiting ()) (by simp)).2, (hother (.writerWaiting ()) (by simp)).2]
    exact h.asleep
  · rw [(hother (.writerWaiting ()) (by simp)).2]
    exact h.blocked

theorem handOver_inv {w v : T} {ws : List T} (hp : Placed k q)
    (hasleep : ∀ t, k.status t = .rwlockSleep →
      t ∈ q (.readerWaiting ()) ∨ t ∈ q (.writerWaiting ()))
    (hq : q (.writerWaiting ()) = w :: v :: ws) :
    ∃ k' q', threadsAddActive (setHead (setOwner k () (some w)) (.writerWaiting ()) (k.next w)) w
        = some k' ∧ Inv k' q' := by
  have hwait : IsWait (.writerWaiting () : ListName Unit) := trivial
  have htail : (k.lists (.writerWaiting ())).tail = (v :: ws).getLast? := by
    rw [hp.waitTail hwait, hq, getLast?_cons_cons]
  obtain ⟨hpop, hoff⟩ := hp.pop_wait
    (e := ⟨k.next w, (k.lists (.writerWaiting ())).tail⟩) hwait hq rfl htail
  have hst : k.status w = .rwlockSleep := hp.kind (l := .writerWaiting ()) (by simp [hq])
  have hpop' : Placed (setHead (setOwner k () (some w)) (.writerWaiting ()) (k.next w))
      (update q (.writerWaiting ()) (v :: ws)) := hpop.frame rfl
  have hsleeps : (setHead (setOwner k () (some w)) (.writerWaiting ()) (k.next w)).status w
      ≠ .active := by
    intro hact
    have hst' : k.status w = .active := hact
    cases hst.symm.trans hst'
  obtain ⟨n, L, q', heq, hplaced, hother⟩ := threadsAddActive_spec hpop' hsleeps hoff
  have hreaders : q' (.readerWaiting ()) = q (.readerWaiting ()) := by
    rw [(hother _ (by simp)).2, update_of_ne (by simp)]
  have hwriters : q' (.writerWaiting ()) = v :: ws := by
    rw [(hother _ (by simp)).2, update_self]
  refine ⟨_, q', heq, hplaced, fun t ht => ?_, fun t ht => .inl ?_⟩
  · rw [hreaders, hwriters]
    have htw : t ≠ w := by
      rintro rfl
      simp at ht
    have ht' : k.status t = .rwlockSleep := by
      rw [← ht]
      simp [htw]
      rfl
    rcases hasleep t ht' with hr | hw
    · exact .inl hr
    · exact .inr (by simpa [hq, htw] using hw)
  · simp [setHead, setOwner, Kernel.setList]

/-- `Level` counted down for a reader: the first lines of `RWLock_Release`. -/
def counted (k : Kernel T Unit) : Kernel T Unit :=
  if k.rwlockOwner () ≠ some k.cur then setLevel k () (wrap32 (k.rwlockLevel () - 1)) else k

omit [Fintype T] in
theorem counted_frame (k : Kernel T Unit) : queueing (counted k) = queueing k := by
  rw [counted]
  split_ifs <;> rfl

theorem rwlockRelease_eq (k : Kernel T Unit) : rwlockRelease k () =
    match ((counted k).lists (.writerWaiting ())).head with
    | some w =>
      let k₁ := setHead (setOwner (counted k) () (some w)) (.writerWaiting ()) ((counted k).next w)
      if k₁.status w ≠ .active then threadsAddActive k₁ w else some k₁
    | none => wakeReaders () (walkFuel T) (setOwner (counted k) () none) := rfl

theorem release_inv (h : Inv s.kernel q) (hkept : Kept s .release) :
    ∃ k' q', rwlockRelease s.kernel () = some k' ∧ Inv k' q' := by
  have hp := h.placed.frame (counted_frame s.kernel)
  obtain ⟨hnext, hlists, hstatus, -⟩ := queueing_eq (counted_frame s.kernel)
  rw [rwlockRelease_eq]
  rcases hkept with ⟨w, hw, hwn⟩ | ⟨hwriter, hreader⟩
  · have hw' : ((counted s.kernel).lists (.writerWaiting ())).head = some w := by
      rw [hlists]; exact hw
    obtain ⟨ws, hq⟩ := hp.holds.head_cons hw'
    have hlinked := hp.holds.linked (.writerWaiting ())
    rw [hq] at hlinked
    cases ws with
    | nil => exact absurd (hnext ▸ hlinked.2) hwn
    | cons v ws =>
      have hst : (counted s.kernel).status w = .rwlockSleep :=
        hp.kind (l := .writerWaiting ()) (by simp [hq])
      obtain ⟨k', q', heq, hinv⟩ := handOver_inv hp (by rw [hstatus]; exact h.asleep) hq
      refine ⟨k', q', ?_, hinv⟩
      rw [← heq]
      simp [hw', setHead, setOwner, Kernel.setList, hst]
  · rw [h.placed.holds.head_eq, head?_eq_none_iff] at hwriter hreader
    have hnone : ∀ t, s.kernel.status t ≠ .rwlockSleep := by
      intro t ht
      have hmem := h.asleep t ht
      rw [hwriter, hreader] at hmem
      simp at hmem
    refine ⟨setOwner (counted s.kernel) () none, q, ?_, ?_⟩
    · simp [hp.holds.head_eq, hwriter, hreader, wakeReaders, walkFuel, setOwner]
    · refine ⟨hp.frame rfl, fun t ht => absurd ?_ (hnone t), fun t ht => absurd ?_ (hnone t)⟩
      all_goals rw [← hstatus]; exact ht

omit [DecidableEq T] in
theorem stale_tail {next : T → Option T} {e : ThreadList T} {xs : List T}
    (h : Placed k q) (hl : IsWait l) (hq : q l ≠ []) (hhead : e.head = none)
    (htail : e.tail = (k.lists l).tail) (hlinked : Linked next e.head xs) :
    e.tail ≠ xs.getLast? := by
  rw [hhead] at hlinked
  have hxs : none = xs.head? := hlinked.head_eq
  rw [eq_comm, head?_eq_none_iff] at hxs
  rw [htail, h.waitTail hl, hxs, getLast?_nil]
  simpa using hq

/-- Any other release leaves a tail behind that its queue does not have. -/
theorem release_breaks {k' : Kernel T Unit} (h : Inv s.kernel q)
    (hcur : s.kernel.status s.kernel.cur = .active) (hkept : ¬ Kept s .release)
    (hk' : rwlockRelease s.kernel () = some k') (rs ws : List T) : ¬ NoLostWaiter k' rs ws := by
  have hp := h.placed.frame (counted_frame s.kernel)
  obtain ⟨hnext, hlists, hstatus, -, hcur', -⟩ := queueing_eq (counted_frame s.kernel)
  have hact : (counted s.kernel).status (counted s.kernel).cur = .active := by
    rw [hstatus, hcur', hcur]
  rw [rwlockRelease_eq] at hk'
  intro hlost
  cases hw : ((counted s.kernel).lists (.writerWaiting ())).head with
  | some w =>
    obtain ⟨vs, hq⟩ := hp.holds.head_cons hw
    have hmem : w ∈ q (.writerWaiting ()) := by simp [hq]
    have hst : (counted s.kernel).status w = .rwlockSleep := hp.kind hmem
    have hwn : (counted s.kernel).next w = none := by
      by_contra hne
      exact hkept (.inl ⟨w, by rw [← hlists]; exact hw, by rw [← hnext]; exact hne⟩)
    simp only [hw] at hk'
    rw [if_pos (by simp [setHead, setOwner, Kernel.setList, hst])] at hk'
    obtain ⟨-, a, n, L, rfl, -, -, hsame⟩ := threadsAddActive_links hk'
      fun hwc => hp.cur_off (l := .writerWaiting ()) hact (hwc ▸ hmem)
    have hL := hsame (.writerWaiting ()) (by simp)
    refine stale_tail hp (l := .writerWaiting ()) trivial (by simp [hq]) ?_ ?_
      hlost.fromWriters hlost.writersLast
    · simp [hL, setHead, Kernel.setList, hwn]
    · simp [hL, setHead, Kernel.setList, setOwner]
  | none =>
    obtain ⟨r, hr⟩ : ∃ r, ((counted s.kernel).lists (.readerWaiting ())).head = some r := by
      by_contra hno
      refine hkept (.inr ⟨by rw [← hlists]; exact hw, ?_⟩)
      rw [← hlists]
      exact eq_none_iff_forall_ne_some.mpr fun r hr => hno ⟨r, hr⟩
    obtain ⟨vs, hq⟩ := hp.holds.head_cons hr
    have hmem : r ∈ q (.readerWaiting ()) := by simp [hq]
    have hrc : r ≠ (counted s.kernel).cur := fun hrc =>
      hp.cur_off (l := .readerWaiting ()) hact (hrc ▸ hmem)
    simp only [hw] at hk'
    obtain ⟨k₂, hwake, rfl⟩ := RWLockExclusion.wakeReaders_one
      (k := setOwner (counted s.kernel) () none) hr hrc hk'
    obtain ⟨-, a, n, L, rfl, -, -, hsame⟩ := threadsAddActive_links hwake hrc
    have hL := hsame (.readerWaiting ()) (by simp)
    refine stale_tail hp (l := .readerWaiting ()) trivial (by simp [hq]) ?_ ?_
      hlost.fromReaders hlost.readersLast
    · simp [setHead, Kernel.setList]
    · simp [hL, setHead, Kernel.setList, setOwner, setLevel]

theorem step_inv (s : State T) (c : Call T) (h : ∃ q, Inv s.kernel q)
    (hc : Running s c ∧ Kept s c) : ∃ s', step s c = some s' ∧ ∃ q, Inv s'.kernel q := by
  obtain ⟨q, h⟩ := h
  obtain ⟨hrun, hkept⟩ := hc
  cases c with
  | acquireRead => exact ⟨_, rfl, acquireRead_inv h hrun⟩
  | acquireWrite => exact ⟨_, rfl, acquireWrite_inv h hrun⟩
  | release =>
    obtain ⟨k', q', heq, hinv⟩ := release_inv h hkept
    exact ⟨_, map_eq_some_iff.mpr ⟨k', heq, rfl⟩, q', hinv⟩
  | dispatch p t =>
    obtain ⟨ht, rfl⟩ := hrun
    obtain ⟨k', q', heq, hinv⟩ := dispatch_inv h ht
    exact ⟨_, map_eq_some_iff.mpr ⟨k', heq, rfl⟩, q', hinv⟩

omit [DecidableEq T] in
theorem start_inv (h : RWLockExclusion.Start k q) : Inv k q :=
  ⟨h.placed, fun t ht => absurd ht (h.awake t), fun t ht => absurd ht (h.awake t)⟩

/-- Releases that find two waiting writers or nobody lose no waiter; the first other one does. -/
theorem no_waiter_lost_iff_releases_keep (hk : RWLockExclusion.Start k q) {cs : List (Call T)}
    (hcs : Along step (fun s c => Running s c ∧ Kept s c) ⟨k, fun _ => []⟩ cs) :
    ∃ s, run step ⟨k, fun _ => []⟩ cs = some s ∧ (∃ rs ws, NoLostWaiter s.kernel rs ws) ∧
      ∀ s', Running s .release → step s .release = some s' →
        ((∃ rs ws, NoLostWaiter s'.kernel rs ws) ↔ Kept s .release) := by
  obtain ⟨s, hs, q', hinv⟩ := run_total step_inv ⟨q, start_inv hk⟩ hcs
  refine ⟨s, hs, ⟨_, _, hinv.noLostWaiter⟩, fun s' hrun hs' => ⟨fun hlost => ?_, fun hkept => ?_⟩⟩
  · obtain ⟨k', hk', rfl⟩ := map_eq_some_iff.mp hs'
    obtain ⟨rs, ws, hlost⟩ := hlost
    by_contra hkept
    exact release_breaks hinv hrun hkept hk' rs ws hlost
  · obtain ⟨s'', heq, q'', hinv''⟩ := step_inv s .release ⟨q', hinv⟩ ⟨hrun, hkept⟩
    cases hs'.symm.trans heq
    exact ⟨_, _, hinv''.noLostWaiter⟩

open RWLockExclusion (Start threeReady ready_start)

instance (s : State T) : DecidablePred (Running s) := fun c => by
  refine c.casesOn ?_ ?_ ?_ ?_ <;> intros <;> dsimp only [Running] <;> infer_instance

instance (s : State T) : DecidablePred (Kept s) := fun c => by
  refine c.casesOn ?_ ?_ ?_ ?_ <;> intros <;> dsimp only [Kept] <;> infer_instance

def twoWritersCalls : List (Call (Fin 3)) :=
  [.acquireWrite, .dispatch 0 1, .acquireWrite, .dispatch 0 2, .acquireWrite, .dispatch 0 0,
    .release]

theorem no_waiter_lost_sample : ∃ s, Start threeReady.kernel (readyLists [1, 2]) ∧
      Along step (fun s c => Running s c ∧ Kept s c) threeReady twoWritersCalls ∧
      run step threeReady twoWritersCalls = some s ∧ ∃ rs ws, NoLostWaiter s.kernel rs ws := by
  have hstart : Start threeReady.kernel (readyLists [1, 2]) := ready_start _ (by decide) (by decide)
  have halong : Along step (fun s c => Running s c ∧ Kept s c) threeReady twoWritersCalls := by
    decide +kernel
  obtain ⟨s, hs, hlost, -⟩ := no_waiter_lost_iff_releases_keep hstart halong
  exact ⟨s, hstart, halong, hs, hlost⟩

/-- Two readers wait behind a writer; only the first one is woken, and when it releases, the
other sleeps on a free lock. -/
def twoReadersCalls : List (Call (Fin 3)) :=
  [.acquireWrite, .dispatch 0 1, .acquireRead, .dispatch 0 2, .acquireRead, .dispatch 0 0,
    .release, .dispatch 0 1, .release]

theorem second_reader_is_lost : ∃ s, Start threeReady.kernel (readyLists [1, 2]) ∧
      Along step Running threeReady twoReadersCalls ∧
      run step threeReady twoReadersCalls = some s ∧ s.kernel.status 2 = .rwlockSleep ∧
      s.kernel.rwlockOwner () = none ∧ s.kernel.rwlockLevel () = 0 ∧
      ∀ rs ws, ¬ NoLostWaiter s.kernel rs ws := by
  have halong : Along step Running threeReady twoReadersCalls := by decide +kernel
  have hrun : (run step threeReady twoReadersCalls).map (fun s => (s.kernel.status 2,
      s.kernel.rwlockOwner (), s.kernel.rwlockLevel ())) = some (.rwlockSleep, none, 0) := by
    decide +kernel
  obtain ⟨s, hs, hend⟩ := map_eq_some_iff.mp hrun
  simp only [Prod.mk.injEq] at hend
  obtain ⟨hst, howner, hlevel⟩ := hend
  exact ⟨s, ready_start _ (by decide) (by decide), halong, hs, hst, howner, hlevel,
    fun rs ws hlost => hlost.free howner hlevel 2 hst⟩

end RWLockWaiters
