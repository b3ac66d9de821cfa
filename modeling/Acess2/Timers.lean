import Mathlib.Data.List.TakeWhile
import Acess2.Histories
import Acess2.Workqueues

/-! Kernel timers (`time.c`).
A timer that waits is on `gTimers`; one with a callback goes from there to the callback queue
when it is due. Both lists go through its `Next` field, and `bActive` says whether it is on one
of them. -/
namespace Timers

open Function GuardedRuns Histories IntrusiveLists List Option ThreadsModel Workqueues

@[irreducible] def wrap64 (x : ℤ) : ℤ := x.bmod (2 ^ 64)

section Model

inductive Entry (M : Type) where
  | scheduled (m : M) (firesAfter : ℤ)
  /-- removed while it was on `gTimers` -/
  | removed (m : M)
  /-- The event was posted, or the callback run, at this time. -/
  | fired (m : M) (firesAfter time : ℤ)
  /-- the timers that one `Timer_CallTimers` took off `gTimers`, in order -/
  | taken (ms : List (M × ℤ))
  deriving DecidableEq

def Entry.timer {M : Type} : Entry M → Option M
  | .scheduled m _ => some m
  | .removed m => some m
  | .fired m _ _ => some m
  | .taken _ => none

/-- The timers `M`, the clock, and what has happened; an event timer has no callback and is for
the thread in its argument. -/
structure State (M T : Type) where
  next : M → Option M
  firesAfter : M → ℤ
  callback : M → Bool
  argument : M → Option T
  bActive : M → Bool
  gTimers : Option M
  callbackQueue : Ends M
  clock : ℤ
  log : List (Entry M)

variable {M T : Type} [DecidableEq M]

def State.putAt (s : State M T) (prev t : Option M) : State M T :=
  match prev with
  | none => { s with gTimers := t }
  | some p => { s with next := update s.next p t }

/-- The walks over `gTimers`: the last timer that was passed, and the one where it stops.
A failed assertion does not return. -/
def walkTimers (next : M → Option M) (stop : M → Bool) :
    ℕ → Option M → Option M → Option (Option M × Option M)
  | 0, _, _ => none
  | _ + 1, prev, none => some (prev, none)
  | fuel + 1, prev, some t =>
    if prev = some t then none
    else if stop t then some (prev, some t)
    else walkTimers next stop fuel (some t) (next t)

variable [Fintype M]

section

variable (s : State M T) (m : M)

def timeScheduleTimer (delta : ℤ) : Option (State M T) :=
  if s.bActive m then some s
  else do
    let due := wrap64 (s.clock + delta)
    let s := { s with firesAfter := update s.firesAfter m due }
    let (prev, t) ← walkTimers s.next (fun t => t = m ∨ s.firesAfter t > s.firesAfter m)
      (walkFuel M) none s.gTimers
    -- Double schedule
    if t = some m then some s
    else
      let s := { s with next := update s.next m t }.putAt prev (some m)
      some { s with
        bActive := update s.bActive m true
        log := s.log ++ [.scheduled m due] }

def timeRemoveTimer : Option (State M T) := do
  match ← walkTimers s.next (· = m) (walkFuel M) none s.gTimers with
  | (prev, some t) =>
    let s := s.putAt prev (s.next t)
    some { s with bActive := update s.bActive m false, log := s.log ++ [.removed m] }
  -- already complete
  | (_, none) => some s

/-- `Time_InitTimer` without a callback, by `thread` -/
def timeInitTimer (thread : T) : State M T :=
  { s with
    firesAfter := update s.firesAfter m 0
    callback := update s.callback m false
    argument := update s.argument m (some thread)
    bActive := update s.bActive m false }

/-- `Time_ScheduleEvent` by a thread whose `ThreadTimer` is `m` -/
def timeScheduleEvent (thread : T) (delay : ℤ) : Option (State M T) := do
  let s ← timeRemoveTimer s m
  timeScheduleTimer (timeInitTimer s m thread) m delay

/-- The body of the loop of `Timer_CallTimers` for the first timer: it goes to the callback
queue, or its event is posted. -/
def takeTimer : Option (State M T) :=
  let s := { s with gTimers := s.next m }
  if s.callback m then
    some { s with
      next := enqueueLinks s.next s.callbackQueue m
      callbackQueue := enqueueEnds s.callbackQueue m }
  else do
    -- ASSERT( timer->Argument )
    let _thread ← s.argument m
    some { s with
      bActive := update s.bActive m false
      log := s.log ++ [.fired m (s.firesAfter m) s.clock] }

end

/-- The loop of `Timer_CallTimers`; before every call of `now()` time goes on by the next of
the `delays`. -/
def callLoop : ℕ → List ℕ → State M T → Option (List (M × ℤ) × State M T)
  | 0, _, _ => none
  | fuel + 1, delays, s =>
    match s.gTimers with
    | none => some ([], s)
    | some m =>
      let s := { s with clock := s.clock + delays.headD 0 }
      if s.firesAfter m < s.clock then
        -- ASSERT( gTimers != gTimers->Next )
        if s.next m = some m then none
        else do
          let (ms, s') ← callLoop fuel delays.tail (← takeTimer s m)
          some ((m, s.firesAfter m) :: ms, s')
      else some ([], s)

def timerCallTimers (s : State M T) (delays : List ℕ) : Option (State M T) :=
  (callLoop (walkFuel M) delays s).map fun (ms, s) => { s with log := s.log ++ [.taken ms] }

/-- One round of `Timer_CallbackThread`, which sleeps while the queue is empty -/
def timerCallbackThread (s : State M T) : Option (State M T) :=
  match s.callbackQueue.head with
  | none => some s
  | some m =>
    -- ASSERT( timer->Callback )
    if s.callback m then
      some { s with
        callbackQueue := dequeueEnds s.next s.callbackQueue m
        bActive := update s.bActive m false
        log := s.log ++ [.fired m (s.firesAfter m) s.clock] }
    else none

inductive Op (M T : Type) where
  | scheduleTimer (m : M) (delta : ℤ)
  | removeTimer (m : M)
  | scheduleEvent (thread : T) (delay : ℤ)
  | callTimers (delays : List ℕ)
  | callbackThread
  /-- time goes on -/
  | pass (delay : ℕ)

def step (threadTimer : T → M) (s : State M T) : Op M T → Option (State M T)
  | .scheduleTimer m delta => timeScheduleTimer s m delta
  | .removeTimer m => timeRemoveTimer s m
  | .scheduleEvent thread delay => timeScheduleEvent s (threadTimer thread) thread delay
  | .callTimers delays => timerCallTimers s delays
  | .callbackThread => timerCallbackThread s
  | .pass delay => some { s with clock := s.clock + delay }

/-- A timer has been initialised before it is scheduled. -/
def Legal (s : State M T) : Op M T → Prop
  | .scheduleTimer m _ => s.callback m = true ∨ s.argument m ≠ none
  | _ => True

end Model

variable {M T : Type}

def Armed (log : List (Entry M)) (m : M) (firesAfter : ℤ) : Prop :=
  Since (· = .scheduled m firesAfter) (fun e => e.timer = some m) log

/-- A timer fires late enough, once for a schedule, and not after it was removed; one call
takes the timers in order. -/
def Sound (before : List (Entry M)) : Entry M → Prop
  | .fired m firesAfter time => firesAfter < time ∧ Armed before m firesAfter
  | .taken ms => ms.Pairwise fun a b => a.2 ≤ b.2
  | _ => True

/-- `waiting` and `called` are what the walks along `gTimers` and the callback queue meet. -/
structure InOrder (s : State M T) (waiting called : List M) : Prop where
  timers : Linked s.next s.gTimers waiting
  queue : Linked s.next s.callbackQueue.head called
  sorted : waiting.Pairwise fun a b => s.firesAfter a ≤ s.firesAfter b
  nodup : (waiting ++ called).Nodup
  active : ∀ m, s.bActive m = true ↔ m ∈ waiting ∨ m ∈ called
  history : Fits Sound s.log

section Lists

inductive Line where
  | timers
  | callbacks
  deriving DecidableEq

/-- `gTimers` has no tail pointer, so `last` stands for it. -/
def ends (g last : Option M) (queue : Ends M) : Line → Ends M
  | .timers => ⟨g, last⟩
  | .callbacks => queue

def lines (waiting called : List M) : Line → List M
  | .timers => waiting
  | .callbacks => called

variable {s : State M T} {waiting called xs ys : List M} {m : M} {last g : Option M}
  {queue : Ends M} {n : M → Option M}

theorem holds_timers {g' last' : Option M} (h : Holds n
    (update (ends g last queue) .timers ⟨g', last'⟩) (update (lines waiting called) .timers xs)) :
    Holds n (ends g' last' queue) (lines xs called) := by
  convert h using 1 <;> funext i <;> cases i <;> rfl

theorem holds_callbacks {e : Ends M} (h : Holds n
    (update (ends g last queue) .callbacks e) (update (lines waiting called) .callbacks xs)) :
    Holds n (ends g last e) (lines waiting xs) := by
  convert h using 1 <;> funext i <;> cases i <;> rfl

theorem notMem_lines (hw : m ∉ waiting) (hc : m ∉ called) (i : Line) :
    m ∉ lines waiting called i := by
  cases i
  · exact hw
  · exact hc

variable [DecidableEq M]

theorem walkTimers_spec {next : M → Option M} {stop : M → Bool} {p prev : Option M} {fuel : ℕ}
    (h : Linked next p (xs ++ ys)) (hn : (xs ++ ys).Nodup)
    (hprev : ∀ y, prev = some y → y ∉ xs ++ ys)
    (hpass : ∀ x ∈ xs, stop x = false) (hstop : ∀ y, ys.head? = some y → stop y = true)
    (hfuel : xs.length < fuel) :
    walkTimers next stop fuel prev p = some (xs.getLast?.or prev, ys.head?) := by
  induction xs generalizing p prev fuel with
  | nil =>
    obtain ⟨n, rfl⟩ := Nat.exists_eq_add_of_lt hfuel
    cases ys with
    | nil =>
      obtain rfl := h
      simp [walkTimers]
    | cons y ys =>
      obtain ⟨rfl, -⟩ := h
      have hne : prev ≠ some y := fun hp => hprev y hp mem_cons_self
      simp [walkTimers, hne, hstop y rfl]
  | cons x xs ih =>
    cases fuel with
    | zero => exact absurd hfuel (Nat.not_lt_zero _)
    | succ n =>
      obtain ⟨rfl, hrest⟩ := h
      obtain ⟨hx, hn⟩ := nodup_cons.mp hn
      have hne : prev ≠ some x := fun hp => hprev x hp mem_cons_self
      have hprev' : ∀ y, some x = some y → y ∉ xs ++ ys := fun y hy => some.inj hy ▸ hx
      rw [walkTimers, if_neg hne, hpass x mem_cons_self, if_neg Bool.false_ne_true,
        ih hrest hn hprev' (fun y hy => hpass y (mem_cons_of_mem x hy))
          (Nat.lt_of_succ_lt_succ hfuel), getLast?_cons]
      cases xs.getLast? <;> rfl

theorem putAt_insert
    (h : Holds s.next (ends s.gTimers last s.callbackQueue) (lines (xs ++ ys) called))
    (hw : m ∉ xs ++ ys) (hc : m ∉ called) :
    ∃ n g, State.putAt { s with next := update s.next m ys.head? } xs.getLast? (some m) =
        { s with next := n, gTimers := g } ∧
      Holds n (ends g (xs ++ m :: ys).getLast? s.callbackQueue) (lines (xs ++ m :: ys) called) := by
  have hhead : s.gTimers = (xs ++ ys).head? := h.head_eq .timers
  have hsplit : lines (xs ++ ys) called .timers = xs ++ ys := rfl
  have hoff := notMem_lines hw hc
  cases hlast : xs.getLast? with
  | none =>
    obtain rfl := getLast?_eq_none_iff.mp hlast
    refine ⟨update s.next m ys.head?, some m, rfl, ?_⟩
    refine holds_timers (h.insert hsplit hoff (update_self _ _ _) ?_ ?_ rfl rfl)
    · exact fun t ht => (by cases ht)
    · exact fun y hy _ => update_of_ne hy _ _
  | some p =>
    have hp : p ∈ xs := mem_of_getLast? hlast
    have hpm : p ≠ m := by
      rintro rfl
      exact hw (mem_append_left ys hp)
    refine ⟨update (update s.next m ys.head?) p (some m), s.gTimers, rfl, ?_⟩
    refine holds_timers (h.insert hsplit hoff ?_ ?_ ?_ ?_ rfl)
    · rw [update_of_ne hpm.symm, update_self]
    · intro t ht
      cases hlast.symm.trans ht
      exact update_self _ _ _
    · intro y hy hyp
      have hyp' : y ≠ p := by
        rintro rfl
        exact hyp hlast
      rw [update_of_ne hyp', update_of_ne hy]
    · obtain ⟨z, zs, rfl⟩ := exists_cons_of_ne_nil (ne_nil_of_mem hp)
      exact hhead

theorem putAt_unlink
    (h : Holds s.next (ends s.gTimers last s.callbackQueue) (lines (xs ++ m :: ys) called)) :
    ∃ n g, s.putAt xs.getLast? (s.next m) = { s with next := n, gTimers := g } ∧
      Holds n (ends g (xs ++ ys).getLast? s.callbackQueue) (lines (xs ++ ys) called) := by
  have hhead : s.gTimers = (xs ++ m :: ys).head? := h.head_eq .timers
  have hnext : s.next m = ys.head? := (h.linked .timers).next_eq
  have hsplit : lines (xs ++ m :: ys) called .timers = xs ++ m :: ys := rfl
  cases hlast : xs.getLast? with
  | none =>
    obtain rfl := getLast?_eq_none_iff.mp hlast
    refine ⟨s.next, s.next m, rfl, ?_⟩
    exact holds_timers
      (h.unlink hsplit (fun y hy => (by cases hy)) (fun _ _ _ => rfl) hnext fun _ => rfl)
  | some p =>
    refine ⟨update s.next p (s.next m), s.gTimers, rfl, ?_⟩
    refine holds_timers (h.unlink hsplit ?_ ?_ ?_ fun _ => rfl)
    · intro y hy
      cases hlast.symm.trans hy
      exact update_self _ _ _
    · intro y _ hyp
      have hyp' : y ≠ p := by
        rintro rfl
        exact hyp hlast
      exact update_of_ne hyp' _ _
    · obtain ⟨z, zs, rfl⟩ := exists_cons_of_ne_nil (ne_nil_of_mem (mem_of_getLast? hlast))
      exact hhead

end Lists

variable {threadTimer : T → M} {s s' : State M T} {waiting called : List M} {m : M}

structure Inv (threadTimer : T → M) (s : State M T) (waiting called : List M) : Prop where
  holds : Holds s.next (ends s.gTimers waiting.getLast? s.callbackQueue) (lines waiting called)
  queueTail : s.callbackQueue.tail = called.getLast?
  sorted : waiting.Pairwise fun a b => s.firesAfter a ≤ s.firesAfter b
  active : ∀ m, s.bActive m = true ↔ m ∈ waiting ∨ m ∈ called
  initialised : ∀ m ∈ waiting, s.callback m = true ∨ s.argument m ≠ none
  callbacks : ∀ m ∈ called, s.callback m = true
  due : ∀ m ∈ called, s.firesAfter m < s.clock
  events : ∀ t, s.callback (threadTimer t) = false
  armed : ∀ m, m ∈ waiting ∨ m ∈ called → Armed s.log m (s.firesAfter m)
  history : Fits Sound s.log

section

variable (h : Inv threadTimer s waiting called)
include h

theorem Inv.apart (hw : m ∈ waiting) : m ∉ called := by
  intro hc
  have hw' : m ∈ lines waiting called .timers := hw
  cases h.holds.apart hw' (show m ∈ lines waiting called .callbacks from hc)

theorem Inv.inOrder : InOrder s waiting called := by
  refine { h with timers := ?timers, queue := ?queue, nodup := ?nodup }
  case timers => exact h.holds.linked .timers
  case queue => exact h.holds.linked .callbacks
  case nodup =>
    refine List.Nodup.append (h.holds.nodup .timers) (h.holds.nodup .callbacks) ?_
    exact fun m hw hc => h.apart hw hc

theorem Inv.pass (delay : ℕ) : Inv threadTimer { s with clock := s.clock + delay } waiting called :=
  { h with due := fun m hm => lt_of_lt_of_le (h.due m hm) (by simp) }

end

variable {e : Entry M} {fuel : ℕ}

theorem armed_snoc {log : List (Entry M)} {firesAfter : ℤ}
    (h : Armed log m firesAfter) (he : e.timer ≠ some m) : Armed (log ++ [e]) m firesAfter :=
  Since.snoc h he

theorem exists_split (waiting : List M) (stop : M → Bool) :
    ∃ xs ys, waiting = xs ++ ys ∧ (∀ x ∈ xs, stop x = false) ∧
      ∀ y, ys.head? = some y → stop y = true := by
  refine ⟨waiting.takeWhile fun t => !stop t, waiting.dropWhile fun t => !stop t,
    takeWhile_append_dropWhile.symm, fun x hx => ?_, fun y hy => ?_⟩
  · simpa using mem_takeWhile_imp hx
  · have hhead := head?_dropWhile_not (fun t => !stop t) waiting
    rw [hy] at hhead
    simpa using hhead

structure Start (threadTimer : T → M) (s : State M T) : Prop where
  gTimers : s.gTimers = none
  callbackQueue : s.callbackQueue = ⟨none, none⟩
  bActive : ∀ m, s.bActive m = false
  events : ∀ t, s.callback (threadTimer t) = false
  log : s.log = []

theorem Start.inv (h : Start threadTimer s) : Inv threadTimer s [] [] := by
  constructor
  case holds =>
    constructor
    case linked =>
      intro i
      cases i with
      | timers => exact h.gTimers
      | callbacks => exact congrArg Ends.head h.callbackQueue
    case nodup => exact fun i => (by cases i <;> exact nodup_nil)
    case apart => exact fun {i _ _} hx => (by cases i <;> cases hx)
    case tail => exact fun i hne => (by cases i <;> exact absurd rfl hne)
  case queueTail => exact congrArg Ends.tail h.callbackQueue
  case sorted => exact List.Pairwise.nil
  case active => simp [h.bActive]
  case initialised => exact fun _ hm => (by cases hm)
  case callbacks => exact fun _ hm => (by cases hm)
  case due => exact fun _ hm => (by cases hm)
  case events => exact h.events
  case armed => exact fun _ hm => (by rcases hm with hm | hm <;> cases hm)
  case history =>
    rw [h.log]
    exact fits_nil

variable [DecidableEq M]

/-- A timer leaves the lists, for a reason that is right. -/
theorem Inv.leave (h : Inv threadTimer s waiting called) {n : M → Option M} {g : Option M}
    {queue : Ends M} {waiting' called' : List M}
    (hholds : Holds n (ends g waiting'.getLast? queue) (lines waiting' called'))
    (htail : queue.tail = called'.getLast?) (hw : waiting'.Sublist waiting)
    (hc : called'.Sublist called)
    (hmem : ∀ y, y ∈ waiting' ∨ y ∈ called' ↔ (y ∈ waiting ∨ y ∈ called) ∧ y ≠ m)
    (he : e.timer = some m) (hsound : Sound s.log e) :
    Inv threadTimer { s with
      next := n, gTimers := g, callbackQueue := queue
      bActive := update s.bActive m false
      log := s.log ++ [e] } waiting' called' := by
  constructor
  case holds => exact hholds
  case queueTail => exact htail
  case sorted => exact h.sorted.sublist hw
  case active =>
    intro y
    rw [hmem]
    change update s.bActive m false y = true ↔ _
    by_cases hy : y = m
    · simp [hy]
    · rw [update_of_ne hy, h.active]
      simp [hy]
  case initialised => exact fun y hy => h.initialised y (hw.subset hy)
  case callbacks => exact fun y hy => h.callbacks y (hc.subset hy)
  case due => exact fun y hy => h.due y (hc.subset hy)
  case events => exact h.events
  case armed =>
    intro y hy
    obtain ⟨hold, hne⟩ := (hmem y).mp hy
    refine armed_snoc (h.armed y hold) fun hy => hne ?_
    exact some.inj (hy.symm.trans he)
  case history => exact h.history.snoc hsound

theorem Inv.reset (h : Inv threadTimer s waiting called) (hw : m ∉ waiting) (hc : m ∉ called)
    {f : M → ℤ} {c b : M → Bool} {a : M → Option T} (hf : ∀ y, y ≠ m → f y = s.firesAfter y)
    (hcb : ∀ y, y ≠ m → c y = s.callback y) (harg : ∀ y, y ≠ m → a y = s.argument y)
    (hact : b = update s.bActive m false) (hown : ∀ t, c (threadTimer t) = false) :
    Inv threadTimer { s with firesAfter := f, callback := c, argument := a, bActive := b }
      waiting called := by
  have hwne (y : M) (hy : y ∈ waiting) : y ≠ m := fun hym => hw (hym ▸ hy)
  have hcne (y : M) (hy : y ∈ called) : y ≠ m := fun hym => hc (hym ▸ hy)
  refine { h with
    sorted := ?sorted, active := ?active, initialised := ?initialised, callbacks := ?callbacks
    due := ?due, events := hown, armed := ?armed }
  case sorted =>
    refine h.sorted.imp_of_mem fun {x y} hx hy hxy => ?_
    change f x ≤ f y
    rw [hf _ (hwne _ hx), hf _ (hwne _ hy)]
    exact hxy
  case active =>
    intro y
    change b y = true ↔ _
    rw [hact]
    by_cases hym : y = m
    · subst hym
      simp [hw, hc]
    · rw [update_of_ne hym]
      exact h.active y
  case initialised =>
    intro y hy
    change c y = true ∨ a y ≠ none
    rw [hcb y (hwne y hy), harg y (hwne y hy)]
    exact h.initialised y hy
  case callbacks =>
    intro y hy
    exact (hcb y (hcne y hy)).trans (h.callbacks y hy)
  case due =>
    intro y hy
    change f y < _
    rw [hf y (hcne y hy)]
    exact h.due y hy
  case armed =>
    intro y hy
    change Armed s.log y (f y)
    rw [hf y (hy.elim (hwne y) (hcne y))]
    exact h.armed y hy

theorem take_inv (h : Inv threadTimer s (m :: waiting) called) (hdue : s.firesAfter m < s.clock) :
    ∃ s' called', takeTimer s m = some s' ∧ Inv threadTimer s' waiting called' ∧
      s'.firesAfter = s.firesAfter := by
  have hlinked : Linked s.next s.gTimers (m :: waiting) := h.holds.linked .timers
  have hnodup : (m :: waiting).Nodup := h.holds.nodup .timers
  have hw : m ∉ waiting := (nodup_cons.mp hnodup).1
  have hc : m ∉ called := h.apart mem_cons_self
  have hsorted := (pairwise_cons.mp h.sorted).2
  have hpop : Holds s.next (ends (s.next m) waiting.getLast? s.callbackQueue)
      (lines waiting called) :=
    holds_timers (h.holds.pop rfl (fun _ _ => rfl) hlinked.2.head_eq fun _ => rfl)
  cases hcb : s.callback m with
  | true =>
    have htake : takeTimer s m = some { s with
        gTimers := s.next m
        next := enqueueLinks s.next s.callbackQueue m
        callbackQueue := enqueueEnds s.callbackQueue m } := if_pos hcb
    have hmem (y : M) : y ∈ waiting ∨ y ∈ called ++ [m] ↔ y ∈ m :: waiting ∨ y ∈ called := by
      simp only [mem_append, mem_cons, not_mem_nil, or_false]
      tauto
    refine ⟨_, called ++ [m], htake, { h with
      holds := ?_
      queueTail := (enqueueEnds_tail _ _).trans getLast?_concat.symm
      sorted := hsorted
      active := fun y => (h.active y).trans (hmem y).symm
      initialised := fun y hy => h.initialised y (mem_cons_of_mem m hy)
      callbacks := forall_mem_append.mpr ⟨h.callbacks, forall_mem_singleton.mpr hcb⟩
      due := forall_mem_append.mpr ⟨h.due, forall_mem_singleton.mpr hdue⟩
      armed := fun y hy => h.armed y ((hmem y).mp hy) }, rfl⟩
    exact holds_callbacks
      (enqueue_holds hpop (i := Line.callbacks) h.queueTail (notMem_lines hw hc))
  | false =>
    have harg : s.argument m ≠ none := by
      refine (h.initialised m mem_cons_self).resolve_left ?_
      rw [hcb]
      exact Bool.false_ne_true
    obtain ⟨thread, hthread⟩ := ne_none_iff_exists'.mp harg
    have htake : takeTimer s m = some { s with
        gTimers := s.next m
        bActive := update s.bActive m false
        log := s.log ++ [.fired m (s.firesAfter m) s.clock] } := by
      refine (if_neg (Bool.not_eq_true _ ▸ hcb)).trans ?_
      change (s.argument m).bind _ = _
      rw [hthread]
      rfl
    refine ⟨_, called, htake, ?_, rfl⟩
    refine h.leave hpop h.queueTail (sublist_cons_self m _) (List.Sublist.refl _) (fun y => ?_) rfl
      ⟨hdue, h.armed m (.inl mem_cons_self)⟩
    by_cases hy : y = m
    · simp [hy, hw, hc]
    · simp [hy]

theorem callLoop_due {delays : List ℕ} {s₁ : State M T} {ms : List (M × ℤ)}
    (hhead : s.gTimers = some m) (hdue : s.firesAfter m < s.clock + (delays.headD 0 : ℕ))
    (hself : s.next m ≠ some m)
    (htake : takeTimer { s with clock := s.clock + (delays.headD 0 : ℕ) } m = some s₁)
    (hloop : callLoop fuel delays.tail s₁ = some (ms, s')) :
    callLoop (fuel + 1) delays s = some ((m, s.firesAfter m) :: ms, s') := by
  rw [callLoop]
  split
  · rename_i hnone
    cases hnone.symm.trans hhead
  rename_i m' hm'
  cases hm'.symm.trans hhead
  refine (if_pos hdue).trans ((if_neg hself).trans ?_)
  rw [htake]
  change (callLoop fuel delays.tail s₁).bind _ = _
  rw [hloop]
  rfl

/-- The loop takes the first timers of the list, in their order. -/
theorem callLoop_inv (h : Inv threadTimer s waiting called) (delays : List ℕ)
    (hfuel : waiting.length < fuel) :
    ∃ taken rest called' s', waiting = taken ++ rest ∧
      callLoop fuel delays s = some (taken.map fun m => (m, s.firesAfter m), s') ∧
        Inv threadTimer s' rest called' := by
  induction fuel generalizing s waiting called delays with
  | zero => exact absurd hfuel (Nat.not_lt_zero _)
  | succ n ih =>
    have hlinked : Linked s.next s.gTimers waiting := h.holds.linked .timers
    cases waiting with
    | nil =>
      refine ⟨[], [], called, s, rfl, ?_, h⟩
      have hnone : s.gTimers = none := hlinked
      rw [callLoop, hnone]
      rfl
    | cons m waiting =>
      have hhead : s.gTimers = some m := hlinked.1
      have hpass := h.pass (delays.headD 0)
      by_cases hdue : s.firesAfter m < s.clock + (delays.headD 0 : ℕ)
      · obtain ⟨s₁, called₁, htake, hinv, hsame⟩ := take_inv hpass hdue
        obtain ⟨taken, rest, called', s', hsplit, hloop, hinv'⟩ :=
          ih hinv delays.tail (Nat.lt_of_succ_lt_succ hfuel)
        refine ⟨m :: taken, rest, called', s', by rw [hsplit]; rfl, ?_, hinv'⟩
        have hself : s.next m ≠ some m := by
          intro hself
          have hmem := mem_of_head? (hlinked.2.head_eq.symm.trans hself)
          exact (nodup_cons.mp (h.holds.nodup .timers)).1 hmem
        rw [hsame] at hloop
        exact callLoop_due hhead hdue hself htake hloop
      · refine ⟨[], m :: waiting, called, _, rfl, ?_, hpass⟩
        rw [callLoop, hhead]
        exact if_neg hdue

theorem callbackThread_inv (h : Inv threadTimer s waiting called) :
    ∃ s', timerCallbackThread s = some s' ∧
      ∃ waiting called, Inv threadTimer s' waiting called := by
  have hhead : s.callbackQueue.head = called.head? := h.holds.head_eq .callbacks
  cases called with
  | nil =>
    refine ⟨s, ?_, waiting, [], h⟩
    rw [timerCallbackThread, hhead]
    rfl
  | cons m called =>
    have hcb : s.callback m = true := h.callbacks m mem_cons_self
    have hstep : timerCallbackThread s = some { s with
        callbackQueue := dequeueEnds s.next s.callbackQueue m
        bActive := update s.bActive m false
        log := s.log ++ [.fired m (s.firesAfter m) s.clock] } := by
      rw [timerCallbackThread, hhead]
      exact if_pos hcb
    have hw : m ∉ waiting := fun hw => h.apart hw mem_cons_self
    have hc : m ∉ called := (nodup_cons.mp (h.holds.nodup .callbacks)).1
    refine ⟨_, hstep, waiting, called, ?_⟩
    refine h.leave (holds_callbacks (dequeue_holds h.holds (i := Line.callbacks) h.queueTail rfl))
      (dequeueEnds_tail h.holds (i := Line.callbacks) h.queueTail rfl) (List.Sublist.refl _)
      (sublist_cons_self m _) (fun y => ?_) rfl
      ⟨h.due m mem_cons_self, h.armed m (.inr mem_cons_self)⟩
    by_cases hy : y = m
    · simp [hy, hw, hc]
    · simp [hy]

variable [Fintype M]

section

variable (h : Inv threadTimer s waiting called)
include h

theorem Inv.walk {xs ys : List M} {stop : M → Bool}
    (hsplit : waiting = xs ++ ys) (hpass : ∀ x ∈ xs, stop x = false)
    (hstop : ∀ y, ys.head? = some y → stop y = true) :
    walkTimers s.next stop (walkFuel M) none s.gTimers = some (xs.getLast?, ys.head?) := by
  have hlinked : Linked s.next s.gTimers waiting := h.holds.linked .timers
  have hnodup : waiting.Nodup := h.holds.nodup .timers
  have hfuel := ThreadsQueues.walk_short hnodup
  rw [hsplit] at hlinked hnodup hfuel
  rw [length_append] at hfuel
  rw [walkTimers_spec hlinked hnodup (fun _ hy => (by cases hy)) hpass hstop (by omega), or_none]

theorem remove_inv (m : M) :
    ∃ s', timeRemoveTimer s m = some s' ∧ Inv threadTimer s' (waiting.erase m) called ∧
      s'.callback = s.callback ∧ (m ∈ waiting → s'.log = s.log ++ [.removed m]) := by
  have hpass {xs : List M} (hxs : m ∉ xs) (y : M) (hy : y ∈ xs) : decide (y = m) = false :=
    decide_eq_false fun heq => hxs (heq ▸ hy)
  by_cases hm : m ∈ waiting
  · obtain ⟨xs, ys, hsplit, hxs⟩ := eq_append_cons_of_mem hm
    have hwalk := h.walk hsplit (hpass hxs) fun y hy => decide_eq_true (some.inj hy).symm
    have hholds := h.holds
    rw [hsplit] at hholds
    obtain ⟨n, g, hput, hholds'⟩ := putAt_unlink hholds
    have hrest : waiting.erase m = xs ++ ys := by
      rw [hsplit, erase_append_right _ hxs, erase_cons_head]
    have hremove : timeRemoveTimer s m = some { s with
        next := n, gTimers := g
        bActive := update s.bActive m false
        log := s.log ++ [.removed m] } := by
      rw [timeRemoveTimer, hwalk]
      change some _ = _
      rw [hput]
    refine ⟨_, hremove, ?_, rfl, fun _ => rfl⟩
    refine h.leave (hrest ▸ hholds') h.queueTail erase_sublist (List.Sublist.refl _)
      (fun y => ?_) rfl trivial
    have hnodup : waiting.Nodup := h.holds.nodup .timers
    have hc := h.apart hm
    rw [hnodup.mem_erase_iff]
    by_cases hy : y = m
    · simp [hy, hc]
    · simp [hy]
  · have hwalk := h.walk (append_nil _).symm (hpass hm) fun y hy => (by cases hy)
    refine ⟨s, ?_, (erase_of_not_mem hm).symm ▸ h, rfl, fun hm' => absurd hm' hm⟩
    rw [timeRemoveTimer, hwalk]
    rfl

theorem schedule_inv (hinit : s.callback m = true ∨ s.argument m ≠ none) (delta : ℤ) :
    ∃ s', timeScheduleTimer s m delta = some s' ∧
      ∃ waiting called, Inv threadTimer s' waiting called := by
  by_cases hactive : s.bActive m = true
  · exact ⟨s, if_pos hactive, waiting, called, h⟩
  obtain ⟨hw, hc⟩ := not_or.mp (mt (h.active m).mpr hactive)
  let due := wrap64 (s.clock + delta)
  let f := update s.firesAfter m due
  have hf : f m = due := update_self _ _ _
  have hset : Inv threadTimer { s with firesAfter := f } waiting called := by
    refine h.reset hw hc ?_ (fun _ _ => rfl) (fun _ _ => rfl) ?_ h.events
    · exact fun y hy => update_of_ne hy _ _
    · rw [← Bool.not_eq_true _ |>.mp hactive, update_eq_self]
  obtain ⟨xs, ys, hsplit, hpass, hstop⟩ := exists_split waiting fun t => decide (t = m ∨ f t > f m)
  have hwalk := hset.walk hsplit hpass hstop
  have hholds := hset.holds
  rw [hsplit] at hholds hw
  obtain ⟨n, g, hput, hholds'⟩ := putAt_insert hholds hw hc
  have hother : ys.head? ≠ some m := by
    intro hm
    exact hw (mem_append_right xs (mem_of_head? hm))
  have hschedule : timeScheduleTimer s m delta = some { s with
      firesAfter := f, next := n, gTimers := g
      bActive := update s.bActive m true
      log := s.log ++ [.scheduled m due] } := by
    rw [timeScheduleTimer, if_neg hactive]
    change (walkTimers s.next (fun t => decide (t = m ∨ f t > f m)) _ none s.gTimers).bind _ = _
    rw [hwalk]
    refine (if_neg hother).trans ?_
    exact congrArg (fun s' : State M T => some { s' with
      bActive := update s'.bActive m true
      log := s'.log ++ [Entry.scheduled m due] }) hput
  have hmem (y : M) : y ∈ xs ++ m :: ys ↔ y = m ∨ y ∈ waiting := by
    rw [hsplit, perm_middle.mem_iff, mem_cons]
  refine ⟨_, hschedule, xs ++ m :: ys, called, { hset with
    holds := hholds', sorted := ?sorted, active := ?active, initialised := ?initialised
    armed := ?armed, history := h.history.snoc trivial }⟩
  case sorted =>
    have hsorted := hset.sorted
    rw [hsplit] at hsorted
    obtain ⟨hxs, hys, hcross⟩ := pairwise_append.mp hsorted
    have hbefore : ∀ x ∈ xs, f x ≤ f m := fun x hx =>
      not_lt.mp (not_or.mp (of_decide_eq_false (hpass x hx))).2
    have hafter : ∀ y ∈ ys, f m ≤ f y := by
      cases ys with
      | nil => exact fun y hy => (by cases hy)
      | cons z zs =>
        have hz : f m ≤ f z := by
          refine le_of_lt ((of_decide_eq_true (hstop z rfl)).resolve_left ?_)
          rintro rfl
          exact hother rfl
        exact forall_mem_cons.mpr ⟨hz, fun y hy => hz.trans ((pairwise_cons.mp hys).1 y hy)⟩
    exact pairwise_append.mpr ⟨hxs, pairwise_cons.mpr ⟨hafter, hys⟩,
      fun x hx => forall_mem_cons.mpr ⟨hbefore x hx, hcross x hx⟩⟩
  case active =>
    intro y
    rw [hmem]
    change update s.bActive m true y = true ↔ _
    by_cases hy : y = m
    · simp [hy]
    · rw [update_of_ne hy, h.active]
      simp [hy]
  case initialised =>
    intro y hy
    rcases (hmem y).mp hy with rfl | hy
    · exact hinit
    · exact h.initialised y hy
  case armed =>
    intro y hy
    by_cases hym : y = m
    · subst hym
      exact since_last (congrArg _ hf.symm)
    · refine armed_snoc (hset.armed y ?_) fun he => hym (some.inj he).symm
      exact hy.imp_left fun hy => ((hmem y).mp hy).resolve_left hym

theorem event_inv (thread : T) (delay : ℤ) :
    ∃ s', timeScheduleEvent s (threadTimer thread) thread delay = some s' ∧
      ∃ waiting called, Inv threadTimer s' waiting called := by
  obtain ⟨s₁, hremove, hinv, hcb, -⟩ := remove_inv h (threadTimer thread)
  have hw := List.Nodup.not_mem_erase (a := threadTimer thread) (h.holds.nodup .timers)
  have hc : threadTimer thread ∉ called := by
    intro hmem
    have hcall := h.callbacks _ hmem
    rw [h.events] at hcall
    cases hcall
  have hset : Inv threadTimer (timeInitTimer s₁ (threadTimer thread) thread)
      (waiting.erase (threadTimer thread)) called := by
    refine hinv.reset hw hc ?_ ?_ ?_ rfl fun t => ?_
    · exact fun y hy => update_of_ne hy _ _
    · exact fun y hy => update_of_ne hy _ _
    · exact fun y hy => update_of_ne hy _ _
    · rw [hcb]
      by_cases ht : threadTimer t = threadTimer thread
      · rw [ht, update_self]
      · rw [update_of_ne ht]
        exact h.events t
  have hinit : (timeInitTimer s₁ (threadTimer thread) thread).argument
      (threadTimer thread) ≠ none := by
    simp [timeInitTimer]
  obtain ⟨s', hschedule, hinv'⟩ := schedule_inv hset (.inr hinit) delay
  exact ⟨s', bind_eq_some_iff.mpr ⟨s₁, hremove, hschedule⟩, hinv'⟩

theorem callTimers_inv (delays : List ℕ) : ∃ s', timerCallTimers s delays = some s' ∧
      ∃ waiting called, Inv threadTimer s' waiting called := by
  have hnodup : waiting.Nodup := h.holds.nodup .timers
  obtain ⟨taken, rest, called', s', hsplit, hloop, hinv⟩ :=
    callLoop_inv h delays (ThreadsQueues.walk_short hnodup)
  have hsorted := h.sorted
  rw [hsplit] at hsorted
  exact ⟨_, map_eq_some_iff.mpr ⟨_, hloop, rfl⟩, rest, called', { hinv with
    armed := fun m hm => armed_snoc (hinv.armed m hm) fun he => (by cases he)
    history := hinv.history.snoc (pairwise_map.mpr (pairwise_append.mp hsorted).1) }⟩

end

theorem step_inv (threadTimer : T → M) (s : State M T) (op : Op M T)
    (h : ∃ waiting called, Inv threadTimer s waiting called) (hlegal : Legal s op) :
    ∃ s', step threadTimer s op = some s' ∧ ∃ waiting called,
      Inv threadTimer s' waiting called := by
  obtain ⟨waiting, called, h⟩ := h
  cases op with
  | scheduleTimer m delta => exact schedule_inv h hlegal delta
  | removeTimer m =>
    obtain ⟨s', hs', hinv, -⟩ := remove_inv h m
    exact ⟨s', hs', _, called, hinv⟩
  | scheduleEvent thread delay => exact event_inv h thread delay
  | callTimers delays => exact callTimers_inv h delays
  | callbackThread => exact callbackThread_inv h
  | pass delay => exact ⟨_, rfl, waiting, called, h.pass delay⟩

/-- No run of operations fails, and in the state it reaches the timers are in order; the removal
of a timer that waits takes it off `gTimers`, and so (`history`) keeps it from firing. -/
theorem timers_in_order {ops : List (Op M T)} (hstart : Start threadTimer s)
    (hlegal : Along (step threadTimer) Legal s ops) :
    ∃ s', run (step threadTimer) s ops = some s' ∧ ∃ waiting called, InOrder s' waiting called ∧
      ∀ m ∈ waiting, ∃ t, step threadTimer s' (.removeTimer m) = some t ∧
        InOrder t (waiting.erase m) called ∧ t.log = s'.log ++ [.removed m] := by
  obtain ⟨s', hs', waiting, called, hinv⟩ :=
    run_total (step_inv threadTimer) ⟨[], [], hstart.inv⟩ hlegal
  refine ⟨s', hs', waiting, called, hinv.inOrder, fun m hm => ?_⟩
  obtain ⟨t, ht, hremoved, -, hlog⟩ := remove_inv hinv m
  exact ⟨t, ht, hremoved.inOrder, hlog hm⟩

instance {M T : Type} (s : State M T) : DecidablePred (Legal s) := fun c => by
  cases c <;> dsimp only [Legal] <;> infer_instance

def sampleState : State (Fin 3) Unit :=
  { next := fun _ => none, firesAfter := fun _ => 0, callback := fun m => decide (m ≠ 2)
    argument := fun _ => none, bActive := fun _ => false, gTimers := none
    callbackQueue := ⟨none, none⟩, clock := 0, log := [] }

theorem sampleState_start : Start (fun _ => 2) sampleState := by
  constructor
  all_goals decide

def sampleOps : List (Op (Fin 3) Unit) :=
  [.scheduleTimer 0 10, .scheduleTimer 1 5, .scheduleEvent () 7, .removeTimer 1,
   .scheduleTimer 1 20,
    .callTimers [8, 3], .callbackThread]

/-- Two timers have fired and one waits. -/
theorem sample_timers_in_order : ∃ s, run (step fun _ => 2) sampleState sampleOps = some s ∧
    (∃ waiting called, InOrder s waiting called ∧ ∀ m ∈ waiting, ∃ t,
      step (fun _ => 2) s (.removeTimer m) = some t ∧ InOrder t (waiting.erase m) called ∧
        t.log = s.log ++ [.removed m]) ∧ s.gTimers = some 1 ∧ .fired 0 10 11 ∈ s.log := by
  have hlegal : Along (step fun _ => 2) Legal sampleState sampleOps := by decide +kernel
  obtain ⟨s, hs, horder⟩ := timers_in_order sampleState_start hlegal
  have heval : (run (step fun _ => 2) sampleState sampleOps).map
      (fun s => (s.gTimers, s.log.getLast?)) = some (some 1, some (.fired 0 10 11)) := by
    decide +kernel
  rw [hs] at heval
  obtain ⟨hwaits, hlast⟩ := Prod.mk.inj (some.inj heval)
  exact ⟨s, hs, horder, hwaits, mem_of_getLast? hlast⟩

end Timers
