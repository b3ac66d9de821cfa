import Mathlib.Algebra.Order.Ring.Int
import Mathlib.Data.Fintype.Card
import Acess2.IntrusiveLists

/-! Threads, run queues and wait queues of the kernel, for one CPU and the
`SCHED_RR_PRI` scheduler (`threads.c`).
All thread lists go through the one `Next` field of a thread. A result of `none` is a
null pointer dereference, a kernel panic or a walk that never ends. -/
namespace ThreadsModel

open Function IntrusiveLists

inductive ThreadStatus where
  | null | active | sleeping | mutexSleep | rwlockSleep | semaphoreSleep | queueSleep
  | eventSleep | waiting | preinit | zombie | dead | buried
  deriving DecidableEq

/-- `MIN_PRIORITY`, the priority that runs last -/
def minPriority : ℕ := 10

abbrev Priority := Fin (minPriority + 1)

-- for the numerals of priorities, and of threads where there are two or three of them
instance (priority := 1100) neZeroPriorities : NeZero (minPriority + 1) := ⟨by decide⟩

instance neZeroTwo : NeZero 2 := ⟨by decide⟩

instance neZeroThree : NeZero 3 := ⟨by decide⟩

/-- The run queues, `gSleepingThreads`, and the wait queues inside the lock objects `O` -/
inductive ListName (O : Type) where
  | activeThreads (priority : Priority)
  | sleepingThreads
  | mutexWaiting (mutex : O)
  | readerWaiting (rwlock : O)
  | writerWaiting (rwlock : O)
  | semWaiting (sem : O)
  | semSignaling (sem : O)
  /-- `Sleeper` of a work queue -/
  | queueSleeper (queue : O)
  deriving DecidableEq

def ListName.status {O : Type} : ListName O → ThreadStatus
  | .activeThreads _ => .active
  | .sleepingThreads => .sleeping
  | .mutexWaiting _ => .mutexSleep
  | .readerWaiting _ => .rwlockSleep
  | .writerWaiting _ => .rwlockSleep
  | .semWaiting _ => .semaphoreSleep
  | .semSignaling _ => .semaphoreSleep
  | .queueSleeper _ => .queueSleep

abbrev ThreadList (T : Type) := Ends T

@[irreducible] def wrap32 (x : ℤ) : ℤ := x.bmod (2 ^ 32)

theorem wrap32_eq {x : ℤ} (h : -(2 ^ 31) ≤ x) (h' : x < 2 ^ 31) : wrap32 x = x := by
  rw [wrap32]
  exact Int.bmod_eq_of_le (by simpa using h) (by simpa using h')

/-- The fields of all threads and lock objects, and the globals of `threads.c`. -/
structure Kernel (T O : Type) where
  status : T → ThreadStatus
  priority : T → Priority
  next : T → Option T
  retStatus : T → ℤ
  waitPointer : T → Option O
  eventState : T → BitVec 32
  /-- Some message is queued for the thread. -/
  messages : T → Bool
  parent : T → Option T
  lastDeadChild : T → Option T
  /-- Where the thread's own `DeadChildLock` is. -/
  deadChildLock : T → O
  lists : ListName O → ThreadList T
  numActive : ℤ
  cur : T
  threadZero : T
  mutexOwner : O → Option T
  rwlockOwner : O → Option T
  rwlockLevel : O → ℤ
  semValue : O → ℤ
  semMax : O → ℤ

variable {T O : Type} [DecidableEq T] [DecidableEq O]

namespace Kernel

def setStatus (k : Kernel T O) (t : T) (st : ThreadStatus) : Kernel T O :=
  { k with status := update k.status t st }

def setNext (k : Kernel T O) (t : T) (p : Option T) : Kernel T O :=
  { k with next := update k.next t p }

def setRetStatus (k : Kernel T O) (t : T) (v : ℤ) : Kernel T O :=
  { k with retStatus := update k.retStatus t v }

def setList (k : Kernel T O) (l : ListName O) (e : ThreadList T) : Kernel T O :=
  { k with lists := update k.lists l e }

end Kernel

def threadsIntAddToList (k : Kernel T O) (l : ListName O) (t : T) : Option (Kernel T O) :=
  match (k.lists l).head with
  | some h => do
    let last ← (k.lists l).tail
    some (((k.setNext last (some t)).setList l ⟨some h, some t⟩).setNext t none)
  | none => some ((k.setList l ⟨some t, some t⟩).setNext t none)

/-- Taking `t` out of a chain once the walk has found its predecessor. -/
def linkPast (k : Kernel T O) (l : ListName O) (t : T) (prev : Option T) : Kernel T O :=
  match prev with
  | none => k.setList l { k.lists l with head := k.next t }
  | some p => k.setNext p (k.next t)

variable [Fintype T]

def walkFuel (T : Type) [Fintype T] : ℕ := Fintype.card T + 1

/-- `Threads_int_DelFromQueue`; whether the thread was there. It keeps its `Next` field. -/
def threadsIntDelFromQueue (k : Kernel T O) (l : ListName O) (t : T) :
    Option (Bool × Kernel T O) := do
  match ← seek k.next t (walkFuel T) none (k.lists l).head with
  | none => some (false, k)
  | some prev =>
    let k' := linkPast k l t prev
    if k.next t = none then
      some (true, k'.setList l { k'.lists l with tail := prev })
    else
      some (true, k')

def threadsAddActive (k : Kernel T O) (t : T) : Option (Kernel T O) := do
  -- Log_KernelPanic: the thread is already active
  if k.status t = .active then none
  let k := k.setStatus t .active
  let k ← if t ≠ k.cur then threadsIntAddToList k (.activeThreads (k.priority t)) t else some k
  some { k with numActive := k.numActive + 1 }

/-- `Threads_RemActive` (it returns the current thread) -/
def threadsRemActive (k : Kernel T O) : Kernel T O :=
  { k with numActive := k.numActive - 1 }

/-- The `ListHead`/`ListTail` arguments of `Threads_int_Sleep`. -/
inductive SleepList (O : Type) where
  /-- head and tail of a wait queue -/
  | queue (l : ListName O)
  /-- the address of a local variable that holds the current thread, and no tail -/
  | self
  /-- neither -/
  | nowhere

/-- `Threads_int_Sleep` up to the point where it waits for its status to change. -/
def threadsIntSleep (k : Kernel T O) (st : ThreadStatus) (ptr : Option O) (num : ℤ)
    (list : SleepList O) : Kernel T O :=
  let us := k.cur
  let k := (threadsRemActive k).setNext us none
  let k := (k.setStatus us st).setRetStatus us num
  let k := { k with waitPointer := update k.waitPointer us ptr }
  match list with
  | .queue l =>
    match (k.lists l).tail with
    | some last => (k.setNext last (some us)).setList l { k.lists l with tail := some us }
    | none => k.setList l ⟨some us, some us⟩
  | .self => k.setNext us (some us)
  | .nowhere => k

/-- `Threads_int_Sleep` after its status has changed: the result is `RetStatus`. -/
def threadsIntSleepEnd (k : Kernel T O) : ℤ × Kernel T O :=
  (k.retStatus k.cur, { k with waitPointer := update k.waitPointer k.cur none })

def threadsSleep (k : Kernel T O) : Option (Kernel T O) :=
  -- no sleep while a message is waiting
  if k.messages k.cur then some k
  else
    threadsIntAddToList ((threadsRemActive k).setStatus k.cur .sleeping) .sleepingThreads k.cur

section

variable (k : Kernel T O)

/-- The `SCHED_RR_PRI` loop of `Threads_int_GetRunnable` over the priorities still to try. -/
def getRunnableFrom : List Priority → Option (Option T × Kernel T O)
  | [] => some (none, k)
  | p :: ps =>
    match (k.lists (.activeThreads p)).head with
    | none => getRunnableFrom ps
    | some t =>
      -- Panic: a thread on a run queue that is not active
      if k.status t ≠ .active then none
      else
        let tail := if k.next t = none then none else (k.lists (.activeThreads p)).tail
        some (some t, (k.setList (.activeThreads p) ⟨k.next t, tail⟩).setNext t none)

def threadsIntGetRunnable : Option (Option T × Kernel T O) :=
  getRunnableFrom k (List.finRange (minPriority + 1))

def releaseLast (last : T) : Option (Kernel T O) :=
  if k.status last = .active then threadsIntAddToList k (.activeThreads (k.priority last)) last
  else some k

/-- `Threads_GetNextToRun` for the last thread of the CPU.
`noTaskSwitch` is the CPU's entry of `gaThreads_NoTaskSwitch`. -/
def threadsGetNextToRun (noTaskSwitch : Bool) (last : T) :
    Option (Option T × Kernel T O) := do
  if noTaskSwitch then some (some last, k)
  else if k.numActive = 0 then some (none, k)
  else threadsIntGetRunnable (← releaseLast k last)

/-- `Proc_Reschedule`: the CPU goes on with the chosen thread, if there is one. -/
def procReschedule (noTaskSwitch : Bool) : Option (Kernel T O) := do
  match ← threadsGetNextToRun k noTaskSwitch k.cur with
  | (none, k) => some k
  | (some t, k) => some { k with cur := t }

end

/-- A switch to any active thread of a run queue; the scheduler's choice is one of these. -/
def dispatch (k : Kernel T O) (p : Priority) (t : T) : Option (Kernel T O) := do
  let k ← releaseLast k k.cur
  if k.status t ≠ .active then none
  match ← threadsIntDelFromQueue k (.activeThreads p) t with
  | (true, k) => some { k.setNext t none with cur := t }
  | (false, _) => none

/-- The bounds of `Threads_SetPriority`: what is no priority becomes the lowest one. -/
def clampPriority (pri : ℤ) : Priority :=
  if h : 0 ≤ pri ∧ pri ≤ minPriority then ⟨pri.toNat, by omega⟩ else Fin.last minPriority

/-- `Threads_SetPriority`; no thread means the current one. -/
def threadsSetPriority (k : Kernel T O) (thread : Option T) (pri : ℤ) : Option (Kernel T O) :=
  let t := thread.getD k.cur
  let pri := clampPriority pri
  if pri = k.priority t then some k
  else if t ≠ k.cur then do
    let (_, k) ← threadsIntDelFromQueue k (.activeThreads (k.priority t)) t
    let k ← threadsIntAddToList k (.activeThreads pri) t
    some { k with priority := update k.priority t pri }
  else some { k with priority := update k.priority t pri }

end ThreadsModel
