import Acess2.LocksModel
import Acess2.GuardedRuns

/-! Exit and reaping of threads (`Threads_Kill` and `Threads_WaitTID` of `threads.c`), and the
kernel in which threads run, sleep, are woken, exit and are reaped.
A dying thread is put on its parent's `LastDeadChild` list under the parent's `DeadChildLock`,
which the parent releases when it has reaped. -/
namespace ThreadsExit

open Function LocksModel ThreadsModel

variable {T O : Type} [DecidableEq T] [DecidableEq O] [Fintype T]

/-- The children of `t` become children of `gThreadZero`, and its messages are dropped. -/
def disown (k : Kernel T O) (t : T) : Kernel T O :=
  { k with
    parent := fun child => if k.parent child = some t then some k.threadZero else k.parent child
    messages := update k.messages t false }

/-- The switch of `Threads_Kill` on the status of a thread that is not a zombie -/
def leaveLists (k : Kernel T O) (t : T) : Option (Kernel T O) :=
  match k.status t with
  | .active => do
    let k ← if t ≠ k.cur then
        (threadsIntDelFromQueue k (.activeThreads (k.priority t)) t).map Prod.snd
      else some k
    some { k with numActive := k.numActive - 1 }
  | .sleeping => (threadsIntDelFromQueue k .sleepingThreads t).map Prod.snd
  -- only on main list, or an un-checked status
  | _ => some k

/-- `Threads_Kill` once it has the lock: the parent is read again. -/
def threadsKillEnd (k : Kernel T O) (t : T) : Option (Kernel T O) := do
  let parent ← k.parent t
  let k := k.setNext t (k.lastDeadChild parent)
  let k := { k with lastDeadChild := update k.lastDeadChild parent (some t) }
  threadsPostEvent k parent eventDeadChild

/-- How far a call of `Threads_Kill` has come -/
inductive KillResult (T : Type) where
  | undead
  /-- The caller sleeps for the lock of the parent. -/
  | slept (parent : T)
  | done (parent : T)
  deriving DecidableEq

/-- `Threads_Kill` up to its end or its sleep -/
def threadsKill (k : Kernel T O) (t : T) (status : ℤ) : Option (KillResult T × Kernel T O) :=
  let k := disown k t
  -- Brains!... You cannot kill something that is already dead
  if k.status t = .zombie then some (.undead, k)
  else do
    let k ← leaveLists k t
    let k := (k.setRetStatus t status).setStatus t .zombie
    let parent ← k.parent t
    -- released by parent
    let k' := mutexAcquire k (k.deadChildLock parent)
    if k.mutexOwner (k.deadChildLock parent) ≠ none then some (.slept parent, k')
    else some (.done parent, ← threadsKillEnd k' t)

/-- The part of `Threads_WaitTID(-1)` behind its wait: the dead child and its status. A failed
assertion does not return. -/
def reap (k : Kernel T O) : Option ((T × ℤ) × Kernel T O) := do
  let us := k.cur
  let dead ← k.lastDeadChild us
  let k := { k with lastDeadChild := update k.lastDeadChild us (k.next dead) }
  let k ← if k.next dead ≠ none then threadsPostEvent k us eventDeadChild
    else some (threadsClearEvent k eventDeadChild)
  let k ← mutexRelease k (k.deadChildLock us)
  if k.status dead ≠ .zombie then none
  else
    -- Threads_Delete
    some ((dead, k.retStatus dead), (k.setStatus dead .dead).setStatus dead .buried)

inductive Call (T : Type) where
  /-- asleep in `Threads_Kill`, or woken with the lock -/
  | kill (victim : T)
  /-- asleep in the wait of `Threads_WaitTID`, or woken -/
  | waitTID
  /-- behind the wait, with the events that fired -/
  | reaping (fired : BitVec 32)
  /-- in the endless loop behind its own `Threads_Kill` -/
  | exited
  deriving DecidableEq

/-- Whom each thread exited to and how, and what `Threads_WaitTID(-1)` returned to whom -/
structure History (T : Type) where
  exits : T → Option (T × ℤ)
  reports : List (T × T × ℤ)

structure System (T O : Type) where
  kernel : Kernel T O
  inside : T → Option (Call T)
  history : History T

inductive Op (T O : Type) where
  /-- `Threads_AddActive` -/
  | addActive (t : T)
  /-- a waker takes the first thread off a wait queue, to make it active -/
  | takeFirst (l : ListName O)
  | intSleep (status : ThreadStatus) (ptr : Option O) (num : ℤ) (list : SleepList O)
  | sleep
  | wake (t : T)
  | kill (t : T) (status : ℤ)
  /-- `Threads_WaitTID(-1)` -/
  | waitTID
  /-- the current thread goes on in its call -/
  | resume
  | reschedule (noTaskSwitch : Bool)

variable (s : System T O)

def Free : Prop :=
  s.kernel.status s.kernel.cur = .active ∧ s.inside s.kernel.cur = none

instance : Decidable (Free s) := inferInstanceAs (Decidable (_ ∧ _))

def System.goInside (t : T) (call : Option (Call T)) : System T O :=
  { s with inside := update s.inside t call }

def System.report (parent : T) (r : T × ℤ) : System T O :=
  { s with history := { s.history with reports := s.history.reports ++ [(parent, r)] } }

def System.exit (t parent : T) (status : ℤ) : System T O :=
  { s with history := { s.history with
      exits := update s.history.exits t (some (parent, status)) } }

def System.kill (t : T) (status : ℤ) : Option (System T O) :=
  (threadsKill s.kernel t status).map fun (r, k) =>
    let s' := { s with kernel := k }
    match r with
    | .undead => s'
    | .slept parent => (s'.exit t parent status).goInside s.kernel.cur (some (.kill t))
    | .done parent =>
      let s' := s'.exit t parent status
      if t = s.kernel.cur then s'.goInside t (some .exited) else s'

def System.waitTID : System T O :=
  match threadsWaitEvents s.kernel eventDeadChild with
  | (none, k) => System.goInside { s with kernel := k } s.kernel.cur (some .waitTID)
  | (some fired, k) =>
    System.goInside { s with kernel := k } s.kernel.cur (some (.reaping fired))

def System.resume : Call T → Option (System T O)
  | .kill victim =>
    (threadsKillEnd (threadsIntSleepEnd s.kernel).2 victim).map fun k =>
      System.goInside { s with kernel := k } s.kernel.cur
        (if victim = s.kernel.cur then some .exited else none)
  | .waitTID =>
    let (fired, k) := threadsWaitEventsEnd (threadsIntSleepEnd s.kernel).2 eventDeadChild
    some (System.goInside { s with kernel := k } s.kernel.cur (some (.reaping fired)))
  | .reaping fired =>
    if fired &&& eventDeadChild ≠ 0 then
      (reap s.kernel).map fun (r, k) =>
        (System.goInside { s with kernel := k } s.kernel.cur none).report s.kernel.cur r
    else
      -- woken with no child
      some (s.goInside s.kernel.cur none)
  | .exited => none

def step : Op T O → Option (System T O)
  | .addActive t => (threadsAddActive s.kernel t).map fun k => { s with kernel := k }
  | .takeFirst l =>
    (s.kernel.lists l).head.map fun t => { s with kernel := popWaiter s.kernel l t }
  | .intSleep status ptr num list =>
    if Free s then some { s with kernel := threadsIntSleep s.kernel status ptr num list } else none
  | .sleep => if Free s then (threadsSleep s.kernel).map fun k => { s with kernel := k } else none
  | .wake t => (threadsWake s.kernel t).map fun (_, k) => { s with kernel := k }
  | .kill t status => if Free s then s.kill t status else none
  | .waitTID => if Free s then some s.waitTID else none
  | .resume =>
    if s.kernel.status s.kernel.cur = .active then (s.inside s.kernel.cur).bind s.resume else none
  | .reschedule noTaskSwitch =>
    (procReschedule s.kernel noTaskSwitch).map fun k => { s with kernel := k }

end ThreadsExit
