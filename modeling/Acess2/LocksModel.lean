import Acess2.ThreadsModel

/-! Mutexes, reader-writer locks, semaphores and thread events
(`mutex.c`, `rwlock.c`, `semaphore.c`, `events.c`) over the thread lists.
A call that can sleep is split at the sleep: what is done under the lock's protector before
it, and what the thread does when it goes on. -/
namespace LocksModel

open Function IntrusiveLists ThreadsModel

variable {T O : Type} [DecidableEq T] [DecidableEq O]

/-- `Mutex_Acquire`; the thread may sleep, and then owns the mutex when it wakes. -/
def mutexAcquire (k : Kernel T O) (m : O) : Kernel T O :=
  if k.mutexOwner m ≠ none then threadsIntSleep k .mutexSleep (some m) 0 (.queue (.mutexWaiting m))
  else { k with mutexOwner := update k.mutexOwner m (some k.cur) }

def mutexRelease (k : Kernel T O) (m : O) : Option (Kernel T O) :=
  match (k.lists (.mutexWaiting m)).head with
  | some owner =>
    let k := { k with mutexOwner := update k.mutexOwner m (some owner) }
    let tail := (k.lists (.mutexWaiting m)).tail
    -- the tail is reset when the last waiting thread has just been removed
    let k := k.setList (.mutexWaiting m)
      ⟨k.next owner, if tail = some owner then none else tail⟩
    if k.status owner ≠ .active then threadsAddActive k owner else some k
  | none => some { k with mutexOwner := update k.mutexOwner m none }

section

variable (k : Kernel T O)

def setLevel (lock : O) (level : ℤ) : Kernel T O :=
  { k with rwlockLevel := update k.rwlockLevel lock level }

def setOwner (lock : O) (owner : Option T) : Kernel T O :=
  { k with rwlockOwner := update k.rwlockOwner lock owner }

def setHead (l : ListName O) (head : Option T) : Kernel T O :=
  k.setList l { k.lists l with head := head }

def rwlockAcquireRead (lock : O) : Kernel T O :=
  if k.rwlockOwner lock ≠ none ∨ (k.lists (.writerWaiting lock)).head ≠ none then
    threadsIntSleep k .rwlockSleep (some lock) 0 (.queue (.readerWaiting lock))
  else
    setLevel k lock (wrap32 (k.rwlockLevel lock + 1))

def rwlockAcquireWrite (lock : O) : Kernel T O :=
  if k.rwlockOwner lock ≠ none ∨ k.rwlockLevel lock ≠ 0 then
    threadsIntSleep k .rwlockSleep (some lock) 0 (.queue (.writerWaiting lock))
  else
    setOwner k lock (some k.cur)

end

/-- The readers' loop of `RWLock_Release`; the next link is read after `Threads_AddActive` has used
it. -/
def wakeReaders (lock : O) : ℕ → Kernel T O → Option (Kernel T O)
  | 0, _ => none
  | fuel + 1, k =>
    match (k.lists (.readerWaiting lock)).head with
    | none => some k
    | some reader => do
      let k := setLevel k lock (wrap32 (k.rwlockLevel lock + 1))
      let k ← threadsAddActive k reader
      wakeReaders lock fuel (setHead k (.readerWaiting lock) (k.next reader))

def rwlockRelease [Fintype T] (k : Kernel T O) (lock : O) : Option (Kernel T O) :=
  let k := if k.rwlockOwner lock ≠ some k.cur then
      setLevel k lock (wrap32 (k.rwlockLevel lock - 1)) else k
  -- writers first
  match (k.lists (.writerWaiting lock)).head with
  | some owner =>
    let k := setHead (setOwner k lock (some owner)) (.writerWaiting lock) (k.next owner)
    if k.status owner ≠ .active then threadsAddActive k owner else some k
  | none => wakeReaders lock (walkFuel T) (setOwner k lock none)

def setValue (k : Kernel T O) (sem : O) (value : ℤ) : Kernel T O :=
  { k with semValue := update k.semValue sem value }

/-- The count taken from a value when no more than `limit` is wanted, or all of it for 0. -/
def takenFrom (value limit : ℤ) : ℤ := if limit ≠ 0 ∧ value > limit then limit else value

/-- The part of `ammountToAdd` that a semaphore has space for. -/
def addedTo (value maxValue ammountToAdd : ℤ) : ℤ :=
  if maxValue ≠ 0 ∧ wrap32 (value + ammountToAdd) > maxValue then wrap32 (maxValue - value)
  else ammountToAdd

def popWaiter (k : Kernel T O) (l : ListName O) (t : T) : Kernel T O :=
  k.setList l ⟨k.next t, if k.next t = none then none else (k.lists l).tail⟩

/-- The end of a loop round: the count is left in `RetStatus` and the thread is woken. -/
def grant (k : Kernel T O) (sem : O) (t : T) (given : ℤ) : Option (Kernel T O) :=
  let k := setValue k sem (wrap32 (k.semValue sem - given))
  let k := k.setRetStatus t given
  if k.status t ≠ .active then threadsAddActive k t else some k

/-- The loop at the end of `Semaphore_Wait` and `Semaphore_Signal`, with the counts it grants -/
def wakeLoop (l : ListName O) (sem : O) (more : Kernel T O → Bool) (share : Kernel T O → T → ℤ) :
    ℕ → Kernel T O → Option (List ℤ × Kernel T O)
  | 0, _ => none
  | fuel + 1, k =>
    match (k.lists l).head with
    | none => some ([], k)
    | some t =>
      if more k then do
        let given := share k t
        let k ← grant (popWaiter k l t) sem t given
        let (gs, k) ← wakeLoop l sem more share fuel k
        some (given :: gs, k)
      else some ([], k)

variable {k : Kernel T O} {sem : O}

theorem wakeLoop_round {l : ListName O} {more : Kernel T O → Bool}
    {share : Kernel T O → T → ℤ} {n : ℕ} {k₁ k' : Kernel T O} {t : T} {gs : List ℤ}
    (hhead : (k.lists l).head = some t) (hmore : more k = true)
    (hgrant : grant (popWaiter k l t) sem t (share k t) = some k₁)
    (hloop : wakeLoop l sem more share n k₁ = some (gs, k')) :
    wakeLoop l sem more share (n + 1) k = some (share k t :: gs, k') := by
  simp [wakeLoop, hhead, hmore, hgrant, hloop]

/-- The loop of `Semaphore_Wait`: blocked signallers are woken while there is space. -/
def wakeSignallers (sem : O) : ℕ → Kernel T O → Option (List ℤ × Kernel T O) :=
  wakeLoop (.semSignaling sem) sem
    (fun k => k.semMax sem = 0 ∨ k.semValue sem < k.semMax sem)
    (fun k t =>
      if k.retStatus t ≠ 0 ∧ wrap32 (k.semValue sem + k.retStatus t) < k.semMax sem then
        k.retStatus t
      else wrap32 (k.semMax sem - k.semValue sem))

/-- The loop of `Semaphore_Signal`: waiters are woken while there are items. -/
def wakeWaiters (sem : O) : ℕ → Kernel T O → Option (List ℤ × Kernel T O) :=
  wakeLoop (.semWaiting sem) sem
    (fun k => k.semValue sem ≠ 0)
    (fun k t => takenFrom (k.semValue sem) (k.retStatus t))

inductive SemResult where
  | returned (count : ℤ) (granted : List ℤ)
  | slept

variable [Fintype T]

/-- `Semaphore_Wait` up to its return or its sleep -/
def semaphoreWait (k : Kernel T O) (sem : O) (maxToTake : ℤ) : Option (SemResult × Kernel T O) :=
  let maxToTake := if maxToTake < 0 then 0 else maxToTake
  if k.semValue sem > 0 then do
    let taken := takenFrom (k.semValue sem) maxToTake
    let k := setValue k sem (wrap32 (k.semValue sem - taken))
    let (gs, k) ← wakeSignallers sem (walkFuel T) k
    some (.returned taken gs, k)
  else
    some (.slept, threadsIntSleep k .semaphoreSleep (some sem) maxToTake (.queue (.semWaiting sem)))

theorem semaphoreWait_some (hv : k.semValue sem > 0) (n : ℤ) : semaphoreWait k sem n =
      (wakeSignallers sem (walkFuel T) (setValue k sem (wrap32 (k.semValue sem -
        takenFrom (k.semValue sem) (if n < 0 then 0 else n))))).map fun r =>
          (.returned (takenFrom (k.semValue sem) (if n < 0 then 0 else n)) r.1, r.2) := by
  rw [semaphoreWait, if_pos hv, Option.map_eq_bind]
  rfl

def semaphoreWaitEnd (k : Kernel T O) (sem : O) : Option (SemResult × Kernel T O) := do
  let (taken, k) := threadsIntSleepEnd k
  let (gs, k) ← wakeSignallers sem (walkFuel T) k
  some (.returned taken gs, k)

/-- `Semaphore_Signal` up to its return or its sleep -/
def semaphoreSignal (k : Kernel T O) (sem : O) (ammountToAdd : ℤ) :
    Option (SemResult × Kernel T O) :=
  if k.semMax sem ≠ 0 ∧ k.semValue sem = k.semMax sem then
    some (.slept,
      threadsIntSleep k .semaphoreSleep (some sem) ammountToAdd (.queue (.semSignaling sem)))
  else do
    let added := addedTo (k.semValue sem) (k.semMax sem) ammountToAdd
    let k := setValue k sem (wrap32 (k.semValue sem + added))
    let (gs, k) ← wakeWaiters sem (walkFuel T) k
    some (.returned added gs, k)

theorem semaphoreSignal_space (hv : ¬ (k.semMax sem ≠ 0 ∧ k.semValue sem = k.semMax sem)) (n : ℤ) :
    semaphoreSignal k sem n =
      (wakeWaiters sem (walkFuel T) (setValue k sem (wrap32 (k.semValue sem +
        addedTo (k.semValue sem) (k.semMax sem) n)))).map fun r =>
          (.returned (addedTo (k.semValue sem) (k.semMax sem) n) r.1, r.2) := by
  rw [semaphoreSignal, if_neg hv, Option.map_eq_bind]
  rfl

def semaphoreSignalEnd (k : Kernel T O) (sem : O) : Option (SemResult × Kernel T O) := do
  let (added, k) := threadsIntSleepEnd k
  let (gs, k) ← wakeWaiters sem (walkFuel T) k
  some (.returned added gs, k)

/-- The walk of `Semaphore_ForceWake` to the element in front of `t`. -/
def seekBefore (next : T → Option T) (t : T) : ℕ → Option T → Option (Option T)
  | 0, _ => none
  | _ + 1, none => some none
  | fuel + 1, some p => if next p = some t then some (some p) else seekBefore next t fuel (next p)

/-- `Semaphore_ForceWake`; only `Waiting` is searched. -/
def semaphoreForceWake (k : Kernel T O) (t : T) : Option (Kernel T O) :=
  if k.status t ≠ .semaphoreSleep then some k
  else do
    let sem ← k.waitPointer t
    let l := ListName.semWaiting sem
    let (prev, k) ←
      if (k.lists l).head = some t then some (none, setHead k l (k.next t))
      else do
        match ← seekBefore k.next t (walkFuel T) (k.lists l).head with
        | some p => some (some p, k.setNext p (k.next t))
        | none => some (none, k)
    let k := if (k.lists l).tail = some t then k.setList l { k.lists l with tail := prev } else k
    threadsAddActive (k.setRetStatus t 0) t

/-- Taking `t` off a semaphore's list in `Threads_Wake`; `none` inside when it is not there. -/
def unlinkWaiter (k : Kernel T O) (l : ListName O) (t : T) : Option (Option (Kernel T O)) := do
  match ← seek k.next t (walkFuel T) none (k.lists l).head with
  | none => some none
  | some prev =>
    let k := linkPast k l t prev
    some (some (if (k.lists l).tail = some t then k.setList l { k.lists l with tail := prev }
      else k))

inductive WakeResult where
  | ok | already | notImpl | internal
  deriving DecidableEq

def threadsWake (k : Kernel T O) (t : T) : Option (WakeResult × Kernel T O) :=
  match k.status t with
  | .active => some (.already, k)
  | .sleeping => do
    let (_, k) ← threadsIntDelFromQueue k .sleepingThreads t
    some (.ok, ← threadsAddActive k t)
  | .semaphoreSleep => do
    let sem ← k.waitPointer t
    match ← unlinkWaiter k (.semWaiting sem) t with
    | some k => some (.ok, ← threadsAddActive (k.setRetStatus t 0) t)
    | none =>
      match ← unlinkWaiter k (.semSignaling sem) t with
      | some k => some (.ok, ← threadsAddActive (k.setRetStatus t 0) t)
      -- the semaphore's protector stays locked
      | none => some (.internal, k)
  | .waiting => some (.notImpl, k)
  | .dead => some (.notImpl, k)
  | _ => some (.internal, k)

def eventTimer : BitVec 32 := 0x8
def eventDeadChild : BitVec 32 := 0x20

def threadsPostEvent (k : Kernel T O) (t : T) (mask : BitVec 32) : Option (Kernel T O) :=
  if mask = 0 then some k
  else
    let k := { k with eventState := update k.eventState t (k.eventState t ||| mask) }
    match k.status t with
    | .eventSleep =>
      if BitVec.ofInt 32 (k.retStatus t) &&& mask ≠ 0 then threadsAddActive k t else some k
    | .semaphoreSleep => if mask &&& eventTimer ≠ 0 then semaphoreForceWake k t else some k
    | _ => some k

variable (k) (mask : BitVec 32)

def threadsClearEvent : Kernel T O :=
  { k with eventState := update k.eventState k.cur (k.eventState k.cur &&& ~~~mask) }

/-- The end of `Threads_WaitEvents`: the events that have fired are returned and cleared. -/
def threadsWaitEventsEnd : BitVec 32 × Kernel T O :=
  (k.eventState k.cur &&& mask, threadsClearEvent k mask)

/-- `Threads_WaitEvents` up to its return (with the fired events) or its sleep -/
def threadsWaitEvents : Option (BitVec 32) × Kernel T O :=
  if mask = 0 then (some 0, k)
  else if k.eventState k.cur &&& mask = 0 then
    (none, threadsIntSleep k .eventSleep none mask.toInt .self)
  else
    let (fired, k) := threadsWaitEventsEnd k mask
    (some fired, k)

end LocksModel
