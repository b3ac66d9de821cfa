import Acess2.RunQueues

/-! The two wait queues of every semaphore.
Threads fall asleep in `Semaphore_Wait` and `Semaphore_Signal`; they are woken by the other
side, by `Threads_Wake`, or by a timer event through `Semaphore_ForceWake`. The last of these
searches the waiters only, so it must not meet a blocked signaller. -/
namespace SemaphoreQueues

open Function GuardedRuns IntrusiveLists List LocksModel Option ThreadsModel ThreadsQueues
open RunQueues (threadsWake_sleeping)

inductive Side where
  | wait | signal
  deriving DecidableEq

def Side.other : Side → Side
  | .wait => .signal
  | .signal => .wait

def listOf {O : Type} : Side × O → ListName O
  | (.wait, sem) => .semWaiting sem
  | (.signal, sem) => .semSignaling sem

theorem listOf_injective {O : Type} : Injective (listOf (O := O)) := by
  rintro ⟨a, sem⟩ ⟨b, sem'⟩ h
  cases a <;> cases b <;> cases h <;> rfl

theorem listOf_isWait {O : Type} (d : Side × O) : IsWait (listOf d) := by
  rcases d with ⟨side, sem⟩
  cases side <;> trivial

theorem listOf_status {O : Type} (d : Side × O) : (listOf d).status = .semaphoreSleep := by
  rcases d with ⟨side, sem⟩
  cases side <;> rfl

structure State (T O : Type) where
  kernel : Kernel T O
  inside : T → Option (Side × O)
  granted : Side × O → ℤ

inductive Call (T O : Type) where
  | wait (sem : O) (maxToTake : ℤ)
  | signal (sem : O) (ammountToAdd : ℤ)
  /-- the current thread goes on after its sleep -/
  | resume
  | wake (t : T)
  /-- `Threads_PostEvent` with `THREAD_EVENT_TIMER` -/
  | timer (t : T)
  | dispatch (p : Priority) (t : T)

variable {T O : Type} {k : Kernel T O} {inside : T → Option (Side × O)} {q : ListName O → List T}
  {l : ListName O} {d : Side × O} {t : T}

section

variable [DecidableEq T] [DecidableEq O]

def credit (granted : Side × O → ℤ) (d : Side × O) (count : ℤ) : Side × O → ℤ :=
  update granted d (granted d + count)

def enter (s : State T O) (side : Side) (sem : O) : SemResult × Kernel T O → State T O
  | (.returned count gs, k) =>
    ⟨k, s.inside, credit (credit s.granted (side, sem) count) (side.other, sem) gs.sum⟩
  | (.slept, k) => ⟨k, update s.inside s.kernel.cur (some (side, sem)), s.granted⟩

def leave (s : State T O) (side : Side) (sem : O) : SemResult × Kernel T O → State T O
  | (.returned _ gs, k) =>
    ⟨k, update s.inside s.kernel.cur none, credit s.granted (side.other, sem) gs.sum⟩
  | (.slept, k) => ⟨k, s.inside, s.granted⟩

def step [Fintype T] (s : State T O) : Call T O → Option (State T O)
  | .wait sem n => (semaphoreWait s.kernel sem n).map (enter s .wait sem)
  | .signal sem n => (semaphoreSignal s.kernel sem n).map (enter s .signal sem)
  | .resume =>
    match s.inside s.kernel.cur with
    | none => none
    | some (.wait, sem) => (semaphoreWaitEnd s.kernel sem).map (leave s .wait sem)
    | some (.signal, sem) => (semaphoreSignalEnd s.kernel sem).map (leave s .signal sem)
  | .wake t => (threadsWake s.kernel t).map fun r => { s with kernel := r.2 }
  | .timer t => (threadsPostEvent s.kernel t eventTimer).map fun k => { s with kernel := k }
  | .dispatch p t => (dispatch s.kernel p t).map fun k => { s with kernel := k }

end

/-- Only a running thread calls, a thread that has slept first finishes its call, and the CPU
switches to an active thread. -/
def Legal (s : State T O) : Call T O → Prop
  | .wait _ _ => s.kernel.status s.kernel.cur = .active ∧ s.inside s.kernel.cur = none
  | .signal _ _ => s.kernel.status s.kernel.cur = .active ∧ s.inside s.kernel.cur = none
  | .resume => s.kernel.status s.kernel.cur = .active ∧ s.inside s.kernel.cur ≠ none
  | .dispatch p t => s.kernel.status t = .active ∧ p = s.kernel.priority t
  | _ => True

/-- The timer does not fire for a blocked signaller. -/
def Spared (s : State T O) : Call T O → Prop
  | .timer t => s.kernel.status t = .semaphoreSleep → ∀ sem, s.inside t ≠ some (.signal, sem)
  | _ => True

/-- The queues are the sleepers, each once and on its side, with right tails. -/
structure QueuesExact (s : State T O) (sem : O) (waiters signallers : List T) : Prop where
  fromWaiting : Linked s.kernel.next (s.kernel.lists (.semWaiting sem)).head waiters
  fromSignaling : Linked s.kernel.next (s.kernel.lists (.semSignaling sem)).head signallers
  lastWaiting : (s.kernel.lists (.semWaiting sem)).tail = waiters.getLast?
  lastSignaling : (s.kernel.lists (.semSignaling sem)).tail = signallers.getLast?
  once : (waiters ++ signallers).Nodup
  calledWait : ∀ t, t ∈ waiters ↔ s.kernel.status t = .semaphoreSleep ∧
    s.kernel.waitPointer t = some sem ∧ s.inside t = some (.wait, sem)
  calledSignal : ∀ t, t ∈ signallers ↔ s.kernel.status t = .semaphoreSleep ∧
    s.kernel.waitPointer t = some sem ∧ s.inside t = some (.signal, sem)
  asleep : ∀ t, s.kernel.status t = .semaphoreSleep → s.kernel.waitPointer t = some sem →
    t ∈ waiters ∨ t ∈ signallers

structure Inv [Fintype T] (k : Kernel T O) (inside : T → Option (Side × O))
    (q : ListName O → List T) : Prop where
  placed : Placed k q
  queued : ∀ d t, t ∈ q (listOf d) ↔ k.status t = .semaphoreSleep ∧ inside t = some d
  pointer : ∀ t, k.status t = .semaphoreSleep → ∃ d, inside t = some d ∧ k.waitPointer t = some d.2

section

variable [Fintype T]

theorem Inv.queuesExact {s : State T O} (h : Inv s.kernel s.inside q) (sem : O) :
    QueuesExact s sem (q (listOf (.wait, sem))) (q (listOf (.signal, sem))) := by
  have hptr : ∀ side t, t ∈ q (listOf (side, sem)) ↔ s.kernel.status t = .semaphoreSleep ∧
      s.kernel.waitPointer t = some sem ∧ s.inside t = some (side, sem) := by
    intro side t
    rw [h.queued]
    refine ⟨fun ⟨hst, hin⟩ => ⟨hst, ?_, hin⟩, fun ⟨hst, _, hin⟩ => ⟨hst, hin⟩⟩
    obtain ⟨d, hd, hp⟩ := h.pointer t hst
    rw [hin, some.injEq] at hd
    rw [hp, ← hd]
  refine ⟨h.placed.holds.linked _, h.placed.holds.linked _, h.placed.waitTail trivial,
    h.placed.waitTail trivial, ?_, hptr .wait, hptr .signal, ?_⟩
  · refine List.Nodup.append (h.placed.holds.nodup _) (h.placed.holds.nodup _) fun t ht ht' => ?_
    have := listOf_injective (h.placed.holds.apart ht ht')
    cases this
  · intro t hst hp
    obtain ⟨⟨side, sem'⟩, hin, hp'⟩ := h.pointer t hst
    obtain rfl : sem' = sem := by simpa [hp, eq_comm] using hp'
    cases side with
    | wait => exact .inl ((h.queued _ t).mpr ⟨hst, hin⟩)
    | signal => exact .inr ((h.queued _ t).mpr ⟨hst, hin⟩)

/-- A thread asleep in a call is where its call says, with something or nothing before it. -/
theorem Inv.split (h : Inv k inside q) (ht : t ∈ q (listOf d)) :
    ∃ xs ys, q (listOf d) = xs ++ t :: ys ∧ t ∉ xs ∧
      Linked k.next (k.lists (listOf d)).head (xs ++ t :: ys) ∧ xs.length < walkFuel T ∧
      ∀ u, u ∈ xs ++ ys ↔ u ∈ q (listOf d) ∧ u ≠ t := by
  obtain ⟨xs, ys, hq⟩ := append_of_mem ht
  have hl := h.placed.holds.linked (listOf d)
  have hn := h.placed.holds.nodup (listOf d)
  rw [hq] at hl hn
  have hout := (nodup_cons.mp (nodup_middle.mp hn)).1
  refine ⟨xs, ys, hq, fun hx => hout (mem_append_left ys hx), hl,
    walk_short ((sublist_append_left xs _).nodup hn), fun u => ?_⟩
  rw [hq]
  simp only [mem_append, mem_cons]
  constructor
  · intro hu
    exact ⟨by tauto, fun hut => hout (by simpa [hut] using hu)⟩
  · tauto

theorem Inv.asleep (h : Inv k inside q) (hst : k.status t = .semaphoreSleep) :
    ∃ d, inside t = some d ∧ k.waitPointer t = some d.2 ∧ t ∈ q (listOf d) := by
  obtain ⟨d, hin, hptr⟩ := h.pointer t hst
  exact ⟨d, hin, hptr, (h.queued d t).mpr ⟨hst, hin⟩⟩

theorem Inv.frame {k' : Kernel T O} (h : Inv k inside q) (hsame : queueing k' = queueing k)
    (hptr : ∀ u, k.status u = .semaphoreSleep → k'.waitPointer u = k.waitPointer u) :
    Inv k' inside q := by
  have hstatus : k'.status = k.status := congrArg (·.2.2.1) hsame
  refine ⟨h.placed.frame hsame, ?_, fun u hu => ?_⟩
  · rw [hstatus]; exact h.queued
  · rw [hstatus] at hu
    rw [hptr u hu]
    exact h.pointer u hu

theorem Inv.short (h : Inv k inside q) (d : Side × O) : (q (listOf d)).length < walkFuel T :=
  walk_short (h.placed.holds.nodup _)

/-- The semaphores have just been initialised; nothing else is said about the kernel than that
its lists are in order. -/
structure Start (k : Kernel T O) (q : ListName O → List T) : Prop where
  placed : Placed k q
  awake : ∀ t, k.status t ≠ .semaphoreSleep
  unused : ∀ d, q (listOf d) = []

def initial (k : Kernel T O) : State T O := ⟨k, fun _ => none, fun _ => 0⟩

theorem start_inv (h : Start k q) : Inv (initial k).kernel (initial k).inside q :=
  ⟨h.placed, fun d t => by simp [h.unused d, initial], fun t ht => absurd ht (h.awake t)⟩

end

variable [DecidableEq T] {xs ys : List T} {n : ℕ} {next : T → Option T} {p : Option T}

theorem seekBefore_found {x : T}
    (h : Linked next p (xs ++ x :: t :: ys)) (ht : t ∉ xs ++ [x]) (hn : xs.length < n) :
    seekBefore next t n p = some (some x) := by
  induction xs generalizing p n with
  | nil =>
    obtain ⟨m, rfl⟩ := Nat.exists_eq_add_of_lt hn
    obtain ⟨rfl, hx⟩ := h
    simp [seekBefore, hx.head_eq]
  | cons y xs ih =>
    cases n with
    | zero => exact absurd hn (by simp)
    | succ m =>
      obtain ⟨rfl, hrest⟩ := h
      have hne : next y ≠ some t := by
        rw [hrest.head_eq]
        cases xs with
        | nil => simpa [eq_comm] using fun hxt => ht (by simp [hxt])
        | cons z zs => simpa [eq_comm] using fun hzt => ht (by simp [hzt])
      rw [seekBefore, if_neg hne]
      exact ih hrest (fun hmem => ht (mem_cons_of_mem y hmem)) (by simpa using hn)

theorem seekBefore_absent (h : Linked next p xs) (ht : t ∉ xs) (hn : xs.length < n) :
    seekBefore next t n p = some none := by
  induction xs generalizing p n with
  | nil =>
    obtain ⟨m, rfl⟩ := Nat.exists_eq_add_of_lt hn
    obtain rfl := h
    simp [seekBefore]
  | cons y xs ih =>
    cases n with
    | zero => exact absurd hn (by simp)
    | succ m =>
      obtain ⟨rfl, hrest⟩ := h
      have hne : next y ≠ some t := by
        rw [hrest.head_eq]
        exact fun hhead => ht (mem_cons_of_mem y (mem_of_head? hhead))
      rw [seekBefore, if_neg hne]
      exact ih hrest (fun hmem => ht (mem_cons_of_mem y hmem)) (by simpa using hn)

variable [Fintype T]

theorem unlinkWaiter_absent [DecidableEq O] (h : Placed k q) (ht : t ∉ q l) :
    unlinkWaiter k l t = some none := by
  simp [unlinkWaiter, seek_absent (h.holds.linked l) ht (walk_short (h.holds.nodup l))]

def timed (k : Kernel T O) (t : T) : Kernel T O :=
  { k with eventState := update k.eventState t (k.eventState t ||| eventTimer) }

theorem Inv.timed (h : Inv k inside q) (t : T) : Inv (timed k t) inside q :=
  ⟨h.placed.frame rfl, h.queued, h.pointer⟩

theorem Inv.leave (h : Inv k inside q) (ht : k.status t = .active) :
    Inv k (update inside t none) q := by
  have hne : ∀ u, k.status u = .semaphoreSleep → u ≠ t := by
    rintro u hu rfl
    cases ht.symm.trans hu
  refine ⟨h.placed, fun d u => ?_, fun u hu => ?_⟩
  · rw [h.queued]
    refine and_congr_right fun hu => ?_
    rw [update_of_ne (hne u hu)]
  · rw [update_of_ne (hne u hu)]
    exact h.pointer u hu

theorem Inv.sleepEnd (h : Inv k inside q) (hcur : k.status k.cur = .active) :
    Inv (threadsIntSleepEnd k).2 inside q := by
  refine h.frame rfl fun u hu => ?_
  have huc : u ≠ k.cur := by
    rintro rfl
    cases hcur.symm.trans hu
  exact update_of_ne huc _ _

variable [DecidableEq O]

def Rouses (k : Kernel T O) (inside : T → Option (Side × O)) (q : ListName O → List T) (t : T) :
    Prop :=
  ∃ n L q', let k' := { k with
      next := n, lists := L, numActive := k.numActive + 1, status := update k.status t .active }
    threadsAddActive k t = some k' ∧ Inv k' inside q' ∧ ∀ d, q' (listOf d) = q (listOf d)

theorem Inv.rouse {k₁ : Kernel T O} {q₁ : ListName O → List T} (h : Inv k inside q)
    (hst : k.status t ≠ .active) (hplaced : Placed k₁ q₁) (hoff : ∀ l, t ∉ q₁ l)
    (hkeep : ∀ d u, u ≠ t → (u ∈ q₁ (listOf d) ↔ u ∈ q (listOf d)))
    (hstatus : k₁.status = k.status) (hptr : k₁.waitPointer = k.waitPointer) :
    Rouses k₁ inside q₁ t := by
  obtain ⟨n, L, q', heq, hplaced', hother⟩ := threadsAddActive_spec hplaced (hstatus ▸ hst) hoff
  have hq' : ∀ d, q' (listOf d) = q₁ (listOf d) := fun d => (hother _ (listOf_isWait d).ne_active).2
  refine ⟨n, L, q', heq, ⟨hplaced', fun d u => ?_, fun u hu => ?_⟩, hq'⟩
  · rw [hq']
    by_cases hut : u = t
    · subst hut
      simpa using hoff _
    · simp only [hstatus, update_of_ne hut, ← h.queued]
      exact hkeep d u hut
  · have hut : u ≠ t := by
      rintro rfl
      simp at hu
    simp only [hptr]
    exact h.pointer u (by simpa [hstatus, hut] using hu)

theorem Inv.wake {k₁ : Kernel T O} (h : Inv k inside q) (ht : t ∈ q (listOf d))
    (hplaced : Placed k₁ (update q (listOf d) ys))
    (hys : ∀ u, u ∈ ys ↔ u ∈ q (listOf d) ∧ u ≠ t) (hstatus : k₁.status = k.status)
    (hptr : k₁.waitPointer = k.waitPointer) : Rouses k₁ inside (update q (listOf d) ys) t := by
  refine h.rouse (by simp [((h.queued d t).mp ht).1]) hplaced (fun l hl => ?_)
    (fun d' u hut => ?_) hstatus hptr
  · by_cases hld : l = listOf d
    · rw [hld, update_self, hys] at hl
      exact hl.2 rfl
    · rw [update_of_ne hld] at hl
      exact hld (h.placed.holds.apart hl ht)
  · by_cases hd' : d' = d
    · subst hd'
      simp [hys, hut]
    · rw [update_of_ne fun hl => hd' (listOf_injective hl)]

theorem grant_spec {ts : List T} (given : ℤ) (h : Inv k inside q) (hq : q (listOf d) = t :: ts) :
    ∃ k' q', grant (popWaiter k (listOf d) t) d.2 t given = some k' ∧ Inv k' inside q' ∧
      q' (listOf d) = ts ∧ (∀ d', d' ≠ d → q' (listOf d') = q (listOf d')) ∧
      k'.cur = k.cur ∧ k'.status = update k.status t .active ∧
      k'.semMax = k.semMax ∧ k'.retStatus = update k.retStatus t given ∧
      k'.semValue = update k.semValue d.2 (wrap32 (k.semValue d.2 - given)) := by
  have ht : t ∈ q (listOf d) := by simp [hq]
  have hst := ((h.queued d t).mp ht).1
  have hnodup := h.placed.holds.nodup (listOf d)
  rw [hq] at hnodup
  obtain ⟨hplaced, -⟩ := h.placed.pop_wait (e := ⟨k.next t, _⟩) (listOf_isWait d) hq rfl
    (h.placed.tail_popped (listOf_isWait d) hq)
  -- the count and the semaphore's value are not what the lists depend on
  let k₁ := (setValue (popWaiter k (listOf d) t) d.2 (wrap32 (k.semValue d.2 - given))).setRetStatus
    t given
  have hplaced₁ : Placed k₁ (update q (listOf d) ts) := hplaced.frame rfl
  have hts : ∀ u, u ∈ ts ↔ u ∈ q (listOf d) ∧ u ≠ t := by
    intro u
    have htn := (nodup_cons.mp hnodup).1
    rw [hq, mem_cons]
    exact ⟨fun hu => ⟨.inr hu, fun hut => htn (hut ▸ hu)⟩, fun hu => hu.1.resolve_left hu.2⟩
  obtain ⟨n, L, q', heq, hinv, hq'⟩ := h.wake ht hplaced₁ hts rfl rfl
  refine ⟨_, q', ?_, hinv, by simp [hq'], fun d' hd' => ?_, rfl, rfl, rfl, rfl, rfl⟩
  · have hact : k₁.status t ≠ .active := by
      change k.status t ≠ .active
      simp [hst]
    change (if k₁.status t ≠ .active then threadsAddActive k₁ t else some k₁) = _
    rw [if_pos hact, heq]
  · rw [hq', update_of_ne fun hl => hd' (listOf_injective hl)]

theorem wakeLoop_inv {more : Kernel T O → Bool} {share : Kernel T O → T → ℤ}
    (h : Inv k inside q) (hn : (q (listOf d)).length < n) :
    ∃ gs k' q', wakeLoop (listOf d) d.2 more share n k = some (gs, k') ∧ Inv k' inside q' ∧
      k'.cur = k.cur ∧ ∀ t, k.status t = .active → k'.status t = .active := by
  induction n generalizing k q with
  | zero => exact absurd hn (by simp)
  | succ n ih =>
    have hhead := h.placed.holds.head_eq (listOf d)
    cases hq : q (listOf d) with
    | nil =>
      rw [hq] at hhead
      exact ⟨[], k, q, by simp [wakeLoop, hhead], h, rfl, fun _ => id⟩
    | cons t ts =>
      rw [hq] at hhead hn
      by_cases hmore : more k = true
      · obtain ⟨k₁, q₁, hgrant, hinv₁, hq₁, -, hcur₁, hstatus₁, -⟩ := grant_spec (share k t) h hq
        obtain ⟨gs, k', q', hloop, hinv', hcur', hstatus'⟩ := ih hinv₁ (by simpa [hq₁] using hn)
        refine ⟨share k t :: gs, k', q', ?_, hinv', hcur'.trans hcur₁, fun u hu => ?_⟩
        · exact wakeLoop_round hhead hmore hgrant hloop
        · refine hstatus' u ?_
          rw [hstatus₁]
          by_cases hut : u = t <;> simp [hut, hu]
      · exact ⟨[], k, q, by simp [wakeLoop, hhead, hmore], h, rfl, fun _ => id⟩

theorem sleep_inv (num : ℤ) (h : Inv k inside q) (hcur : k.status k.cur = .active) :
    ∃ k', threadsIntSleep k .semaphoreSleep (some d.2) num (.queue (listOf d)) = k' ∧
      Inv k' (update inside k.cur (some d)) (update q (listOf d) (q (listOf d) ++ [k.cur])) ∧
      k'.semValue = k.semValue ∧ k'.semMax = k.semMax ∧
      k'.retStatus = update k.retStatus k.cur num := by
  obtain ⟨n, e, heq, hplaced⟩ :=
    threadsIntSleep_queue (some d.2) num h.placed (listOf_isWait d) hcur
  rw [listOf_status] at heq hplaced
  refine ⟨_, heq, ⟨hplaced.frame rfl, fun d' u => ?_, fun u hu => ?_⟩, rfl, rfl, rfl⟩
  · rw [mem_update_concat, listOf_injective.eq_iff]
    by_cases huc : u = k.cur
    · subst huc
      have hoff : k.cur ∉ q (listOf d') := h.placed.cur_off hcur
      simp [hoff, eq_comm]
    · simpa [huc] using h.queued d' u
  · by_cases huc : u = k.cur
    · subst huc
      exact ⟨d, by simp, by simp⟩
    · simpa [huc] using h.pointer u (by simpa [huc] using hu)

/-- Both forced wake-ups link past `t`, and move the tail back when it was the last. -/
def takeOff (k : Kernel T O) (l : ListName O) (t : T) (prev : Option T) : Kernel T O :=
  if ((linkPast k l t prev).lists l).tail = some t then
    (linkPast k l t prev).setList l { (linkPast k l t prev).lists l with tail := prev }
  else linkPast k l t prev

theorem takeOff_spec (h : Placed k q) (hl : IsWait l) (hq : q l = xs ++ t :: ys) :
    ∃ n e, let k' := { k with next := n, lists := update k.lists l e }
      takeOff k l t xs.getLast? = k' ∧ Placed k' (update q l (xs ++ ys)) := by
  have hn := h.holds.nodup l
  rw [hq] at hn
  have htail : (if (k.lists l).tail = some t then xs.getLast? else (k.lists l).tail)
      = (xs ++ ys).getLast? := by
    rw [h.waitTail hl, hq]
    rcases eq_nil_or_concat ys with hys | ⟨zs, z, hys⟩
    · simp [hys]
    · have hz : z ≠ t := by
        rintro rfl
        exact (nodup_cons.mp (nodup_middle.mp hn)).1 (by simp [hys])
      rw [getLast?_without (by simp [hys])]
      simp [hys, getLast?_append, hz]
  obtain ⟨n, hd, hlink, hholds⟩ := linkPast_spec h.holds hq fun _ => htail
  refine ⟨n, ⟨hd, if (k.lists l).tail = some t then xs.getLast? else (k.lists l).tail⟩, ?_,
    h.shrink hl.ne_active hholds (fun u hu => ?_) fun _ => htail⟩
  · rw [takeOff, hlink]
    simp only [update_self]
    split <;> simp [Kernel.setList]
  · rw [hq]
    simp only [mem_append, mem_cons] at hu ⊢
    tauto

theorem takeOff_wake (h : Inv k inside q) (hq : q (listOf d) = xs ++ t :: ys)
    (hys : ∀ u, u ∈ xs ++ ys ↔ u ∈ q (listOf d) ∧ u ≠ t) :
    ∃ k' q', threadsAddActive ((takeOff k (listOf d) t xs.getLast?).setRetStatus t 0) t = some k' ∧
      Inv k' inside q' := by
  obtain ⟨n, e, heq, hplaced⟩ := takeOff_spec h.placed (listOf_isWait d) hq
  have hplaced' : Placed ((takeOff k (listOf d) t xs.getLast?).setRetStatus t 0)
      (update q (listOf d) (xs ++ ys)) := by
    rw [heq]
    exact hplaced.frame rfl
  obtain ⟨n', L, q', hwake, hinv, -⟩ := h.wake (by simp [hq]) hplaced' hys
    (by rw [heq]; rfl) (by rw [heq]; rfl)
  exact ⟨_, q', hwake, hinv⟩

theorem semaphoreForceWake_inv (h : Inv k inside q)
    (hspared : k.status t = .semaphoreSleep → ∀ sem, inside t ≠ some (.signal, sem)) :
    ∃ k' q', semaphoreForceWake k t = some k' ∧ Inv k' inside q' := by
  by_cases hst : k.status t = .semaphoreSleep
  · obtain ⟨⟨side, sem⟩, hin, hptr, ht⟩ := h.asleep hst
    obtain rfl : side = .wait := by
      cases side with
      | wait => rfl
      | signal => exact absurd hin (hspared hst sem)
    obtain ⟨xs, ys, hq, htxs, hl, hshort, hys⟩ := h.split ht
    obtain ⟨k', q', hwake, hinv⟩ := takeOff_wake h hq hys
    refine ⟨k', q', ?_, hinv⟩
    rcases eq_nil_or_concat xs with hxs | ⟨zs, z, hxs⟩
    · subst hxs
      have hhead : (k.lists (.semWaiting sem)).head = some t := hl.1
      have heq : semaphoreForceWake k t
          = threadsAddActive ((takeOff k (.semWaiting sem) t none).setRetStatus t 0) t := by
        simp only [semaphoreForceWake, hst, hptr, hhead, ne_eq, not_true, if_false, if_true,
          bind_eq_bind, bind_some]
        rfl
      exact heq.trans hwake
    rw [concat_eq_append] at hxs
    subst hxs
    have hhead : (k.lists (.semWaiting sem)).head ≠ some t := by
      have hhd : (k.lists (.semWaiting sem)).head = (zs ++ [z] ++ t :: ys).head? := hl.head_eq
      intro hhead
      have hmem : t ∈ (zs ++ [z]) := by
        cases zs <;> simp_all
      exact htxs hmem
    have hfind : seekBefore k.next t (walkFuel T) (k.lists (.semWaiting sem)).head
        = some (some z) :=
      seekBefore_found (by simpa [listOf] using hl) htxs
        (by simp only [length_append] at hshort; omega)
    simpa [semaphoreForceWake, hst, hptr, hhead, hfind, takeOff, linkPast, listOf] using hwake
  · exact ⟨k, q, by simp [semaphoreForceWake, hst], h⟩

theorem semaphoreForceWake_signaller {sem : O} (h : Inv k inside q)
    (hst : k.status t = .semaphoreSleep) (hin : inside t = some (.signal, sem)) :
    semaphoreForceWake k t = threadsAddActive (k.setRetStatus t 0) t := by
  obtain ⟨d, hin', hptr, ht⟩ := h.asleep hst
  obtain rfl : (.signal, sem) = d := by simpa [hin] using hin'
  have habsent : t ∉ q (.semWaiting sem) := fun hmem => by cases h.placed.holds.apart hmem ht
  have hhead : (k.lists (.semWaiting sem)).head ≠ some t := by
    rw [h.placed.holds.head_eq]
    exact fun hhead => habsent (mem_of_head? hhead)
  have htail : (k.lists (.semWaiting sem)).tail ≠ some t := by
    rw [h.placed.waitTail (l := .semWaiting sem) trivial]
    exact fun htail => habsent (mem_of_getLast? htail)
  have hfind := seekBefore_absent (h.placed.holds.linked (.semWaiting sem)) habsent
    (walk_short (h.placed.holds.nodup _))
  simp [semaphoreForceWake, hst, hptr, hhead, htail, hfind]

theorem unlinkWaiter_found (h : Inv k inside q) (ht : t ∈ q (listOf d)) :
    ∃ k₁ k' q', unlinkWaiter k (listOf d) t = some (some k₁) ∧
      threadsAddActive (k₁.setRetStatus t 0) t = some k' ∧ Inv k' inside q' := by
  obtain ⟨xs, ys, hq, htxs, hl, hshort, hys⟩ := h.split ht
  obtain ⟨k', q', hwake, hinv⟩ := takeOff_wake h hq hys
  have hseek : seek k.next t (walkFuel T) none (k.lists (listOf d)).head
      = some (some xs.getLast?) := by
    rw [seek_found hl htxs hshort, or_none]
  refine ⟨takeOff k (listOf d) t xs.getLast?, k', q', ?_, hwake, hinv⟩
  simp only [unlinkWaiter, hseek, bind_eq_bind, bind_some]
  rfl

theorem threadsWake_inv (t : T) (h : Inv k inside q) :
    ∃ r k' q', threadsWake k t = some (r, k') ∧ Inv k' inside q' := by
  cases hst : k.status t with
  | sleeping =>
    obtain ⟨n, L, c, q', hwake, hplaced, hwaits, -⟩ := threadsWake_sleeping h.placed hst
    refine ⟨.ok, _, q', hwake, hplaced, fun d u => ?_, fun u hu => ?_⟩
    · rw [hwaits _ (listOf_isWait d), h.queued]
      by_cases hut : u = t
      · simp [hut, hst]
      · simp [hut]
    · have hut : u ≠ t := by
        rintro rfl
        simp at hu
      exact h.pointer u (by simpa [hut] using hu)
  | semaphoreSleep =>
    obtain ⟨⟨side, sem⟩, hin, hptr, ht⟩ := h.asleep hst
    obtain ⟨k₁, k', q', hunlink, hwake, hinv⟩ := unlinkWaiter_found h ht
    refine ⟨.ok, k', q', ?_, hinv⟩
    cases side with
    | wait =>
      change unlinkWaiter k (.semWaiting sem) t = _ at hunlink
      simp [threadsWake, hst, hptr, hunlink, hwake]
    | signal =>
      have habsent : unlinkWaiter k (.semWaiting sem) t = some none :=
        unlinkWaiter_absent h.placed fun hmem => by cases h.placed.holds.apart hmem ht
      change unlinkWaiter k (.semSignaling sem) t = _ at hunlink
      simp [threadsWake, hst, hptr, habsent, hunlink, hwake]
  | _ => exact ⟨_, k, q, by simp only [threadsWake, hst]; rfl, h⟩

theorem threadsPostEvent_timer (k : Kernel T O) (t : T) :
    threadsPostEvent k t eventTimer = match k.status t with
      | .eventSleep =>
        if BitVec.ofInt 32 (k.retStatus t) &&& eventTimer ≠ 0 then threadsAddActive (timed k t) t
        else some (timed k t)
      | .semaphoreSleep => semaphoreForceWake (timed k t) t
      | _ => some (timed k t) := rfl

theorem timer_inv (h : Inv k inside q)
    (hspared : k.status t = .semaphoreSleep → ∀ sem, inside t ≠ some (.signal, sem)) :
    ∃ k' q', threadsPostEvent k t eventTimer = some k' ∧ Inv k' inside q' := by
  rw [threadsPostEvent_timer]
  have h₁ := h.timed t
  cases hst : k.status t with
  | eventSleep =>
    by_cases hfire : BitVec.ofInt 32 (k.retStatus t) &&& eventTimer ≠ 0
    · -- a thread waiting for events is on no list
      have hoff : ∀ l, t ∉ q l := fun l => h.placed.off_of_status fun l => by
        rw [hst]
        cases l <;> simp [ListName.status]
      obtain ⟨n', L, q', hwake, hinv, -⟩ := h.rouse (by simp [hst]) h₁.placed hoff
        (fun d u _ => Iff.rfl) rfl rfl
      exact ⟨_, q', by simpa only [if_pos hfire] using hwake, hinv⟩
    · exact ⟨_, q, by simp only [if_neg hfire], h₁⟩
  | semaphoreSleep => exact semaphoreForceWake_inv h₁ hspared
  | _ => exact ⟨_, q, rfl, h₁⟩

def Entered (k : Kernel T O) (inside : T → Option (Side × O)) (d : Side × O) :
    SemResult × Kernel T O → Prop
  | (.returned _ _, k') => ∃ q, Inv k' inside q
  | (.slept, k') => ∃ q, Inv k' (update inside k.cur (some d)) q

theorem semaphoreWait_inv (sem : O) (n : ℤ) (h : Inv k inside q) (hcur : k.status k.cur = .active) :
    ∃ r, semaphoreWait k sem n = some r ∧ Entered k inside (.wait, sem) r := by
  by_cases hv : k.semValue sem > 0
  · have hinv : ∀ v, Inv (setValue k sem v) inside q := fun v =>
      h.frame rfl fun _ _ => rfl
    rw [semaphoreWait_some hv]
    obtain ⟨gs, k', q', hloop, hinv', -⟩ := wakeLoop_inv (hinv _) (h.short (.signal, sem))
    exact ⟨_, map_eq_some_iff.mpr ⟨(gs, k'), hloop, rfl⟩, q', hinv'⟩
  · obtain ⟨k', heq, hinv, -⟩ := sleep_inv (d := (.wait, sem)) (if n < 0 then 0 else n) h hcur
    exact ⟨(.slept, k'), by rw [semaphoreWait, if_neg hv, ← heq]; rfl, _, hinv⟩

theorem semaphoreSignal_inv (sem : O) (n : ℤ) (h : Inv k inside q)
    (hcur : k.status k.cur = .active) :
    ∃ r, semaphoreSignal k sem n = some r ∧ Entered k inside (.signal, sem) r := by
  by_cases hv : k.semMax sem ≠ 0 ∧ k.semValue sem = k.semMax sem
  · obtain ⟨k', heq, hinv, -⟩ := sleep_inv (d := (.signal, sem)) n h hcur
    exact ⟨(.slept, k'), by rw [semaphoreSignal, if_pos hv, ← heq]; rfl, _, hinv⟩
  · have hinv : ∀ v, Inv (setValue k sem v) inside q := fun v =>
      h.frame rfl fun _ _ => rfl
    rw [semaphoreSignal_space hv]
    obtain ⟨gs, k', q', hloop, hinv', -⟩ := wakeLoop_inv (hinv _) (h.short (.wait, sem))
    exact ⟨_, map_eq_some_iff.mpr ⟨(gs, k'), hloop, rfl⟩, q', hinv'⟩

theorem resume_inv {more : Kernel T O → Bool} {share : Kernel T O → T → ℤ} (h : Inv k inside q)
    (hcur : k.status k.cur = .active) (d : Side × O) :
    ∃ gs k' q', wakeLoop (listOf d) d.2 more share (walkFuel T) (threadsIntSleepEnd k).2
        = some (gs, k') ∧ Inv k' (update inside k.cur none) q' := by
  obtain ⟨gs, k', q', hloop, hinv', -, hact⟩ := wakeLoop_inv (h.sleepEnd hcur) (h.short d)
  exact ⟨gs, k', q', hloop, hinv'.leave (hact _ hcur)⟩

theorem dispatch_inv (h : Inv k inside q) (ht : k.status t = .active) :
    ∃ n L q', let k' := { k with next := n, lists := L, cur := t }
      dispatch k (k.priority t) t = some k' ∧ Inv k' inside q' ∧
      ∀ d, q' (listOf d) = q (listOf d) := by
  obtain ⟨n, L, q', heq, hplaced, hother⟩ := dispatch_spec h.placed ht
  have hq' : ∀ d, q' (listOf d) = q (listOf d) := fun d => (hother _ (listOf_isWait d).ne_active).2
  exact ⟨n, L, q', heq, ⟨hplaced, fun d u => by rw [hq']; exact h.queued d u, h.pointer⟩, hq'⟩

theorem step_inv (s : State T O) (c : Call T O) (h : ∃ q, Inv s.kernel s.inside q)
    (hc : Legal s c ∧ Spared s c) : ∃ s', step s c = some s' ∧ ∃ q, Inv s'.kernel s'.inside q := by
  obtain ⟨q, h⟩ := h
  obtain ⟨hlegal, hspared⟩ := hc
  have hentered : ∀ side sem r, Entered s.kernel s.inside (side, sem) r →
      ∃ q, Inv (enter s side sem r).kernel (enter s side sem r).inside q := by
    rintro side sem ⟨r, k'⟩ hr
    cases r with
    | returned count gs => exact hr
    | slept => exact hr
  cases c with
  | wait sem n =>
    obtain ⟨r, heq, hr⟩ := semaphoreWait_inv sem n h hlegal.1
    exact ⟨_, map_eq_some_iff.mpr ⟨r, heq, rfl⟩, hentered _ _ _ hr⟩
  | signal sem n =>
    obtain ⟨r, heq, hr⟩ := semaphoreSignal_inv sem n h hlegal.1
    exact ⟨_, map_eq_some_iff.mpr ⟨r, heq, rfl⟩, hentered _ _ _ hr⟩
  | resume =>
    cases hin : s.inside s.kernel.cur with
    | none => exact absurd hin hlegal.2
    | some d =>
      rcases d with ⟨side, sem⟩
      cases side with
      | wait =>
        obtain ⟨gs, k', q', hloop, hinv⟩ := resume_inv h hlegal.1 (.signal, sem)
        refine ⟨leave s .wait sem (.returned (threadsIntSleepEnd s.kernel).1 gs, k'), ?_, q', hinv⟩
        simp only [step, hin]
        exact map_eq_some_iff.mpr ⟨_, bind_eq_some_iff.mpr ⟨_, hloop, rfl⟩, rfl⟩
      | signal =>
        obtain ⟨gs, k', q', hloop, hinv⟩ := resume_inv h hlegal.1 (.wait, sem)
        refine ⟨leave s .signal sem (.returned (threadsIntSleepEnd s.kernel).1 gs, k'), ?_, q',
          hinv⟩
        simp only [step, hin]
        exact map_eq_some_iff.mpr ⟨_, bind_eq_some_iff.mpr ⟨_, hloop, rfl⟩, rfl⟩
  | wake t =>
    obtain ⟨r, k', q', heq, hinv⟩ := threadsWake_inv t h
    exact ⟨_, map_eq_some_iff.mpr ⟨_, heq, rfl⟩, q', hinv⟩
  | timer t =>
    obtain ⟨k', q', heq, hinv⟩ := timer_inv h hspared
    exact ⟨_, map_eq_some_iff.mpr ⟨_, heq, rfl⟩, q', hinv⟩
  | dispatch p t =>
    obtain ⟨ht, rfl⟩ := hlegal
    obtain ⟨n, L, q', heq, hinv, -⟩ := dispatch_inv h ht
    exact ⟨_, map_eq_some_iff.mpr ⟨_, heq, rfl⟩, q', hinv⟩

theorem timer_breaks {s s' : State T O} {sem : O} (h : Inv s.kernel s.inside q)
    (hst : s.kernel.status t = .semaphoreSleep) (hin : s.inside t = some (.signal, sem))
    (hs' : step s (.timer t) = some s') (ws ss : List T) : ¬ QueuesExact s' sem ws ss := by
  obtain ⟨k', hk', rfl⟩ := map_eq_some_iff.mp hs'
  rw [threadsPostEvent_timer, hst] at hk'
  replace hk' := (semaphoreForceWake_signaller (h.timed t) hst hin).symm.trans hk'
  obtain ⟨xs, ys, hq, htxs, hl, -⟩ := h.split ((h.queued (.signal, sem) t).mpr ⟨hst, hin⟩)
  have hholds : Holds ((timed s.kernel t).setRetStatus t 0).next
    ((timed s.kernel t).setRetStatus t 0).lists q := h.placed.holds
  obtain ⟨hlists, hnext, hact⟩ :=
    threadsAddActive_waits (l := listOf (.signal, sem)) hholds hk' (listOf_isWait _)
  intro hexact
  have hfrom : Linked k'.next (k'.lists (listOf (.signal, sem))).head ss := hexact.fromSignaling
  rw [hlists] at hfrom
  have hmem : t ∈ ss := hl.reach
    (fun y hy => hnext y (by simp [hq, hy]) fun hyt => htxs (hyt ▸ hy)) hfrom
  have hsleep : k'.status t = .semaphoreSleep := ((hexact.calledSignal t).mp hmem).1
  cases hact.symm.trans hsleep

/-- The queues are right while the timer spares the blocked signallers; the first timer event for
one makes them wrong. -/
theorem queues_exact_iff_timer_spares (hk : Start k q) {cs : List (Call T O)}
    (hcs : Along step (fun s c => Legal s c ∧ Spared s c) (initial k) cs) :
    ∃ s, run step (initial k) cs = some s ∧ (∀ sem, ∃ ws ss, QueuesExact s sem ws ss) ∧
      ∀ t s', step s (.timer t) = some s' →
        ((∀ sem, ∃ ws ss, QueuesExact s' sem ws ss) ↔ Spared s (.timer t)) := by
  obtain ⟨s, hs, q', hinv⟩ := run_total step_inv ⟨q, start_inv hk⟩ hcs
  refine ⟨s, hs, fun sem => ⟨_, _, hinv.queuesExact sem⟩, fun t s' hs' => ⟨?_, fun hspared => ?_⟩⟩
  · intro hexact hst sem hin
    obtain ⟨ws, ss, hexact⟩ := hexact sem
    exact timer_breaks hinv hst hin hs' ws ss hexact
  · obtain ⟨s'', heq, q'', hinv''⟩ := step_inv s (.timer t) ⟨q', hinv⟩ ⟨trivial, hspared⟩
    cases hs'.symm.trans heq
    exact fun sem => ⟨_, _, hinv''.queuesExact sem⟩

instance (s : State T O) : DecidablePred (Legal s) := fun c => by
  cases c <;> dsimp only [Legal] <;> infer_instance

instance [Fintype O] (s : State T O) : DecidablePred (Spared s) := fun c => by
  cases c <;> dsimp only [Spared] <;> infer_instance

def sharing (value maxValue : ℤ) : Kernel (Fin 3) Unit :=
  { ready (fun _ => ()) 0 [1, 2] with semValue := fun _ => value, semMax := fun _ => maxValue }

theorem sharing_start (value maxValue : ℤ) : Start (sharing value maxValue) (readyLists [1, 2]) :=
  ⟨(ready_placed (fun _ => ()) (by decide) (by decide)).frame rfl,
    fun t => by simp only [sharing, ready]; split_ifs <;> simp,
    fun d => if_neg ((listOf_isWait d).ne_active 0)⟩

def timedWaiterCalls : List (Call (Fin 3) Unit) :=
  [.wait () 1, .dispatch 0 1, .wait () 1, .dispatch 0 2, .timer 0, .signal () 1, .dispatch 0 1,
    .resume]

theorem queues_exact_sample : ∃ s, Start (sharing 0 0) (readyLists [1, 2]) ∧
      Along step (fun s c => Legal s c ∧ Spared s c) (initial (sharing 0 0)) timedWaiterCalls ∧
      run step (initial (sharing 0 0)) timedWaiterCalls = some s ∧
      ∀ sem, ∃ ws ss, QueuesExact s sem ws ss := by
  have halong : Along step (fun s c => Legal s c ∧ Spared s c) (initial (sharing 0 0))
      timedWaiterCalls := by
    decide +kernel
  obtain ⟨s, hs, hexact, -⟩ := queues_exact_iff_timer_spares (sharing_start 0 0) halong
  exact ⟨s, sharing_start 0 0, halong, hs, hexact⟩

def timedSignallerCalls : List (Call (Fin 3) Unit) := [.signal () 1, .dispatch 0 1, .timer 0]

theorem timed_signaller_stays_queued : ∃ s, Start (sharing 1 1) (readyLists [1, 2]) ∧
      Along step Legal (initial (sharing 1 1)) timedSignallerCalls ∧
      run step (initial (sharing 1 1)) timedSignallerCalls = some s ∧
      s.kernel.status 0 = .active ∧ (s.kernel.lists (.semSignaling ())).head = some 0 ∧
      ∀ ws ss, ¬ QueuesExact s () ws ss := by
  have halong : Along step Legal (initial (sharing 1 1)) timedSignallerCalls := by decide +kernel
  have hrun : (run step (initial (sharing 1 1)) timedSignallerCalls).map (fun s =>
      (s.kernel.status 0, (s.kernel.lists (.semSignaling ())).head)) = some (.active, some 0) := by
    decide +kernel
  obtain ⟨s, hs, hend⟩ := map_eq_some_iff.mp hrun
  simp only [Prod.mk.injEq] at hend
  obtain ⟨hst, hhead⟩ := hend
  refine ⟨s, sharing_start 1 1, halong, hs, hst, hhead, fun ws ss hexact => ?_⟩
  have hmem : (0 : Fin 3) ∈ ss := by
    have hss := hexact.fromSignaling.head_eq
    rw [hhead] at hss
    exact mem_of_head? hss.symm
  have hsleep := ((hexact.calledSignal 0).mp hmem).1
  cases hst.symm.trans hsleep

end SemaphoreQueues
