import Acess2.GuardedRuns
import Acess2.LocksModel
import Acess2.ThreadsQueues

/-! Who owns a mutex (`mutex.c`), and in which order.
`Mutex_Release` makes the first waiter the owner before that thread runs, so owner, wait queue
and the calls that are under way are tied together by one invariant. -/
namespace MutexHandOver

open Function GuardedRuns IntrusiveLists List LocksModel Option ThreadsModel ThreadsQueues

variable {T O : Type} [DecidableEq T] [DecidableEq O] [Fintype T] {k : Kernel T O}
  {q : ListName O → List T}

theorem mutexRelease_empty (h : Placed k q) {m : O} (hq : q (.mutexWaiting m) = []) :
    mutexRelease k m = some { k with mutexOwner := update k.mutexOwner m none } := by
  have hhead := h.holds.head_eq (.mutexWaiting m)
  rw [hq] at hhead
  rw [mutexRelease, hhead]
  rfl

/-- `Mutex_Release` hands the lock to the first waiter and makes it active. -/
theorem mutexRelease_next (h : Placed k q) {m : O} {u : T} {us : List T}
    (hq : q (.mutexWaiting m) = u :: us) :
    ∃ n L c q', mutexRelease k m = some { k with
        next := n, lists := L, numActive := c, status := update k.status u .active
        mutexOwner := update k.mutexOwner m (some u) } ∧
      Placed { k with next := n, lists := L, numActive := c
                      status := update k.status u .active } q' ∧
      (∀ l, IsWait l → q' l = update q (.mutexWaiting m) us l) ∧
      ∀ v, (∀ l, v ∉ q l) → n v = k.next v := by
  have hhead := h.holds.head_eq (.mutexWaiting m)
  have htail := h.waitTail (l := .mutexWaiting m) trivial
  have hnodup := h.holds.nodup (.mutexWaiting m)
  rw [hq] at hhead htail hnodup
  have hst : k.status u = .mutexSleep := h.kind (l := .mutexWaiting m) (by simp [hq])
  -- the tail is reset exactly when the waiter was the last one
  have htail' : (if (k.lists (.mutexWaiting m)).tail = some u then none
      else (k.lists (.mutexWaiting m)).tail) = us.getLast? := by
    cases us with
    | nil => simp [htail]
    | cons v vs =>
      have hne : (v :: vs).getLast? ≠ some u := fun hlast =>
        (nodup_cons.mp hnodup).1 (mem_of_getLast? hlast)
      rw [htail, getLast?_cons_cons, if_neg hne]
  let k₁ : Kernel T O := { k with mutexOwner := update k.mutexOwner m (some u) }
  have hk₁ : Placed k₁ q := h.frame rfl
  obtain ⟨hpop, hoff⟩ :=
    hk₁.pop_wait (l := .mutexWaiting m) trivial hq (e := ⟨k.next u, _⟩) rfl htail'
  obtain ⟨n, L, q', hwake, hplaced, hsame⟩ :=
    threadsAddActive_spec hpop (t := u) (by change k.status u ≠ _; rw [hst]; simp) hoff
  refine ⟨n, L, _, q', ?_, hplaced.frame rfl, ?_, ?_⟩
  · have hnact : k.status u ≠ .active := by simp [hst]
    rw [mutexRelease, hhead]
    exact (if_pos hnact).trans hwake
  · exact fun l hl => (hsame l hl.ne_active).2
  · intro v hv
    have hvu : v ≠ u := by
      rintro rfl
      exact hv (.mutexWaiting m) (by simp [hq])
    refine threadsAddActive_next hpop.holds hwake ?_ hvu
    intro l hmem
    by_cases hl : l = .mutexWaiting m
    · subst hl
      rw [update_self] at hmem
      exact hv (.mutexWaiting m) (by simp [hq, hmem])
    · rw [update_of_ne hl] at hmem
      exact hv l hmem

theorem mutexAcquire_held {m : O} (hq : Placed k q) (hact : k.status k.cur = .active)
    (hheld : k.mutexOwner m ≠ none) :
    ∃ n e, mutexAcquire k m = { k with
        next := n, lists := update k.lists (.mutexWaiting m) e
        numActive := k.numActive - 1
        status := update k.status k.cur .mutexSleep
        retStatus := update k.retStatus k.cur 0
        waitPointer := update k.waitPointer k.cur (some m) } ∧
      Placed (mutexAcquire k m) (update q (.mutexWaiting m) (q (.mutexWaiting m) ++ [k.cur])) ∧
      ∀ u, (∀ l, u ∉ q l) → u ≠ k.cur → n u = k.next u := by
  obtain ⟨n, e, hsleep, hplaced⟩ :=
    threadsIntSleep_queue (some m) 0 hq (l := .mutexWaiting m) trivial hact
  have hacquire : mutexAcquire k m = _ := (if_pos hheld).trans hsleep
  refine ⟨n, e, hacquire, ?_, fun u hu hcur => ?_⟩
  · rw [hacquire]
    exact hplaced.frame rfl
  · have hwait : ∀ l, SleepList.queue (ListName.mutexWaiting m) = .queue l → IsWait l := by
      intro l hl
      cases hl
      trivial
    have hnext := threadsIntSleep_next hq (ListName.mutexWaiting m).status (some m) 0 hwait hu hcur
    rw [hsleep] at hnext
    exact hnext

theorem mutexRelease_returns (hq : Placed k q) (m : O) : ∃ k', mutexRelease k m = some k' := by
  cases hwaiters : q (.mutexWaiting m) with
  | nil => exact ⟨_, mutexRelease_empty hq hwaiters⟩
  | cons u us =>
    obtain ⟨n, L, c, q', hrelease, -⟩ := mutexRelease_next hq hwaiters
    exact ⟨_, hrelease⟩

structure State (T O : Type) where
  kernel : Kernel T O
  /-- the mutex whose `Mutex_Acquire` has not returned to the thread yet -/
  inside : T → Option O
  /-- threads that `Mutex_Acquire` has returned to and that have not released -/
  holders : O → List T
  /-- threads that went to sleep on the mutex, in order -/
  arrivals : O → List T
  /-- sleepers that a release made the owner, in order -/
  grants : O → List T

inductive Call (T O : Type) where
  | acquire (mutex : O)
  | release (mutex : O)
  /-- the current thread goes on in `Mutex_Acquire` -/
  | resume
  | dispatch (t : T)

section

variable (s : State T O)

def State.acquire (m : O) : State T O :=
  let cur := s.kernel.cur
  let s' := { s with kernel := mutexAcquire s.kernel m }
  if s.kernel.mutexOwner m ≠ none then
    { s' with
      inside := update s.inside cur (some m)
      arrivals := update s.arrivals m (s.arrivals m ++ [cur]) }
  else { s' with holders := update s.holders m (s.holders m ++ [cur]) }

def State.release (m : O) : Option (State T O) :=
  (mutexRelease s.kernel m).map fun k =>
    { s with
      kernel := k
      holders := update s.holders m ((s.holders m).erase s.kernel.cur)
      grants := update s.grants m
        (s.grants m ++ (s.kernel.lists (.mutexWaiting m)).head.toList) }

def State.resume (m : O) : State T O :=
  { s with
    kernel := (threadsIntSleepEnd s.kernel).2
    inside := update s.inside s.kernel.cur none
    holders := update s.holders m (s.holders m ++ [s.kernel.cur]) }

def step : Call T O → Option (State T O)
  | .acquire m => some (s.acquire m)
  | .release m => s.release m
  | .resume => (s.inside s.kernel.cur).map s.resume
  | .dispatch t => (dispatch s.kernel (s.kernel.priority t) t).map fun k => { s with kernel := k }

/-- The current thread runs, and is not in the middle of `Mutex_Acquire`. -/
def Free : Prop :=
  s.kernel.status s.kernel.cur = .active ∧ s.inside s.kernel.cur = none

/-- A running thread makes its calls one after the other, and releases what it owns. -/
def Legal : Call T O → Prop
  | .acquire _ => Free s
  | .release m => Free s ∧ s.kernel.mutexOwner m = some s.kernel.cur
  | .resume => s.kernel.status s.kernel.cur = .active ∧ s.inside s.kernel.cur ≠ none
  | .dispatch t => s.kernel.status t = .active

end

/-- One mutex: `waiting` is what the walk along its queue meets. -/
structure Exclusive (s : State T O) (m : O) (waiting : List T) : Prop where
  walk : Linked s.kernel.next (s.kernel.lists (.mutexWaiting m)).head waiting
  asleep : ∀ t, t ∈ waiting ↔ s.kernel.status t = .mutexSleep ∧ s.kernel.waitPointer t = some m
  tail : (s.kernel.lists (.mutexWaiting m)).tail = waiting.getLast?
  /-- handed over in the order of arrival, to each arrival once -/
  order : s.arrivals m = s.grants m ++ waiting
  single : (s.holders m).length ≤ 1
  holder : ∀ t ∈ s.holders m, s.kernel.mutexOwner m = some t
  free : s.kernel.mutexOwner m = none → waiting = []

variable {s : State T O} {q' : ListName O → List T} {t : T} {m : O}

/-- The owner of a mutex has returned from `Mutex_Acquire`, or is on its way out of it. -/
structure Inv (s : State T O) (q : ListName O → List T) : Prop where
  placed : Placed s.kernel q
  asleep : ∀ m t, t ∈ q (.mutexWaiting m) ↔
    s.kernel.status t = .mutexSleep ∧ s.kernel.waitPointer t = some m
  called : ∀ m t, t ∈ q (.mutexWaiting m) → s.inside t = some m
  woken : ∀ m t, s.inside t = some m → t ∉ q (.mutexWaiting m) →
    s.kernel.mutexOwner m = some t ∧ s.holders m = []
  owned : ∀ m t, s.kernel.mutexOwner m = some t →
    s.holders m = [t] ∨ (s.holders m = [] ∧ s.inside t = some m)
  free : ∀ m, s.kernel.mutexOwner m = none → s.holders m = [] ∧ q (.mutexWaiting m) = []
  order : ∀ m, s.arrivals m = s.grants m ++ q (.mutexWaiting m)

omit [DecidableEq T] [DecidableEq O] in
theorem Inv.exclusive (h : Inv s q) (m : O) : Exclusive s m (q (.mutexWaiting m)) := by
  constructor
  case walk => exact h.placed.holds.linked _
  case asleep => exact h.asleep m
  case tail => exact h.placed.waitTail trivial
  case order => exact h.order m
  case free => exact fun hfree => (h.free m hfree).2
  case single =>
    cases howner : s.kernel.mutexOwner m with
    | none => simp [(h.free m howner).1]
    | some t =>
      rcases h.owned m t howner with hheld | ⟨hheld, -⟩
      · simp [hheld]
      · simp [hheld]
  case holder =>
    intro t ht
    cases howner : s.kernel.mutexOwner m with
    | none => simp [(h.free m howner).1] at ht
    | some u =>
      rcases h.owned m u howner with hheld | ⟨hheld, -⟩
      · rw [hheld] at ht
        rw [mem_singleton.mp ht]
      · simp [hheld] at ht

omit [DecidableEq T] in
theorem Inv.change (h : Inv s q) {inside : T → Option O} {owner : Option T} {held : List T}
    {arrivals grants : O → List T} (hplaced : Placed k q')
    (hasleep : ∀ m t, t ∈ q' (.mutexWaiting m) ↔
      k.status t = .mutexSleep ∧ k.waitPointer t = some m)
    (hother : ∀ m' ≠ m, k.mutexOwner m' = s.kernel.mutexOwner m' ∧
      q' (.mutexWaiting m') = q (.mutexWaiting m') ∧
      ∀ t, inside t = some m' ↔ s.inside t = some m')
    (howner : k.mutexOwner m = owner) (hcalled : ∀ t ∈ q' (.mutexWaiting m), inside t = some m)
    (hwoken : ∀ t, inside t = some m → t ∉ q' (.mutexWaiting m) → owner = some t ∧ held = [])
    (howned : ∀ t, owner = some t → held = [t] ∨ held = [] ∧ inside t = some m)
    (hfree : owner = none → held = [] ∧ q' (.mutexWaiting m) = [])
    (horder : ∀ m', arrivals m' = grants m' ++ q' (.mutexWaiting m')) :
    Inv ⟨k, inside, update s.holders m held, arrivals, grants⟩ q' := by
  refine ⟨hplaced, hasleep, ?_, ?_, ?_, ?_, horder⟩
  all_goals
    intro m'
    by_cases hm : m' = m
    · subst hm
      simpa only [update_self, howner]
    obtain ⟨howner', hqueue, hinside⟩ := hother m' hm
    simp only [update_of_ne hm, howner', hqueue, hinside]
    first
    | exact h.called m'
    | exact h.woken m'
    | exact h.owned m'
    | exact h.free m'

theorem take_inv (h : Inv s q) (howner : s.kernel.mutexOwner m = none) : Inv (s.acquire m) q := by
  have hacquire : s.acquire m = { s with
      kernel := { s.kernel with
        mutexOwner := update s.kernel.mutexOwner m (some s.kernel.cur) }
      holders := update s.holders m [s.kernel.cur] } := by
    rw [State.acquire, if_neg (not_not_intro howner), mutexAcquire, if_neg (not_not_intro howner),
      (h.free m howner).1]
    rfl
  rw [hacquire]
  refine h.change (h.placed.frame rfl) h.asleep
    (fun m' hm => ⟨update_of_ne hm .., rfl, fun _ => Iff.rfl⟩) (update_self ..) (h.called m) ?woken
    ?owned nofun h.order
  case woken =>
    intro t hinside hoff
    cases howner.symm.trans (h.woken m t hinside hoff).1
  case owned =>
    rintro t ⟨⟩
    exact .inl rfl

theorem wait_inv (h : Inv s q) (hfree : Free s) (howner : s.kernel.mutexOwner m ≠ none) :
    ∃ q', Inv (s.acquire m) q' := by
  obtain ⟨hact, hcall⟩ := hfree
  obtain ⟨n, e, hsleep, hplaced, -⟩ := mutexAcquire_held h.placed hact howner
  have hoff (l : ListName O) : s.kernel.cur ∉ q l := h.placed.cur_off hact
  have hqueue (m' : O) (t : T) :
      t ∈ update q (.mutexWaiting m) (q (.mutexWaiting m) ++ [s.kernel.cur])
        (.mutexWaiting m') ↔ t ∈ q (.mutexWaiting m') ∨ (m' = m ∧ t = s.kernel.cur) := by
    simp [mem_update_concat]
  rw [State.acquire, if_pos howner]
  rw [hsleep] at hplaced ⊢
  refine ⟨update q (.mutexWaiting m) (q (.mutexWaiting m) ++ [s.kernel.cur]), ?_⟩
  rw [← update_eq_self m s.holders]
  refine h.change hplaced ?asleep ?other rfl ?called ?woken ?owned (absurd · howner) ?order
  case asleep =>
    intro m' t
    rw [hqueue]
    change _ ↔ update s.kernel.status s.kernel.cur .mutexSleep t = .mutexSleep ∧
      update s.kernel.waitPointer s.kernel.cur (some m) t = some m'
    by_cases ht : t = s.kernel.cur
    · subst ht
      simp [hoff, eq_comm]
    · rw [update_of_ne ht, update_of_ne ht, h.asleep]
      simp [ht]
  case other =>
    intro m' hm
    refine ⟨rfl, update_of_ne (by simpa using hm) .., fun t => ?_⟩
    by_cases ht : t = s.kernel.cur
    · simp [ht, hcall, hm.symm]
    · rw [update_of_ne ht]
  case called =>
    intro t ht
    rcases (hqueue m t).mp ht with hmem | ⟨-, rfl⟩
    · rw [update_of_ne ?_, h.called m t hmem]
      rintro rfl
      exact hoff _ hmem
    · exact update_self ..
  case woken =>
    intro t hinside ht
    rw [hqueue, not_or] at ht
    have hne : t ≠ s.kernel.cur := fun hne => ht.2 ⟨rfl, hne⟩
    rw [update_of_ne hne] at hinside
    exact h.woken m t hinside ht.1
  case owned =>
    intro t howner'
    refine (h.owned m t howner').imp_right fun ⟨hheld, hinside⟩ => ⟨hheld, ?_⟩
    rw [update_of_ne ?_, hinside]
    rintro rfl
    cases hcall.symm.trans hinside
  case order =>
    intro m'
    by_cases hm : m' = m
    · subst hm
      rw [update_self, update_self, h.order, append_assoc]
    · rw [update_of_ne hm, update_of_ne (by simpa using hm)]
      exact h.order m'

theorem release_free (h : Inv s q) (hheld : s.holders m = [s.kernel.cur])
    (hempty : q (.mutexWaiting m) = []) : ∃ s', s.release m = some s' ∧ ∃ q, Inv s' q := by
  have hhead : (s.kernel.lists (.mutexWaiting m)).head = none := by
    rw [h.placed.holds.head_eq, hempty]
    rfl
  have hrelease : s.release m = some { s with
      kernel := { s.kernel with mutexOwner := update s.kernel.mutexOwner m none }
      holders := update s.holders m [] } := by
    rw [State.release, mutexRelease_empty h.placed hempty, hhead, hheld]
    simp
  refine ⟨_, hrelease, q, ?_⟩
  refine h.change (h.placed.frame rfl) h.asleep
    (fun m' hm => ⟨update_of_ne hm .., rfl, fun _ => Iff.rfl⟩) (update_self ..) (h.called m) ?_
    nofun (fun _ => ⟨rfl, hempty⟩) h.order
  intro t hinside hoff
  cases hheld.symm.trans (h.woken m t hinside hoff).2

theorem release_next (h : Inv s q) (hheld : s.holders m = [s.kernel.cur]) {u : T} {us : List T}
    (hwait : q (.mutexWaiting m) = u :: us) : ∃ s', s.release m = some s' ∧ ∃ q, Inv s' q := by
  have hhead : (s.kernel.lists (.mutexWaiting m)).head = some u := by
    rw [h.placed.holds.head_eq, hwait]
    rfl
  have hu : u ∈ q (.mutexWaiting m) := by simp [hwait]
  have hus : u ∉ us := by
    have hnodup := h.placed.holds.nodup (.mutexWaiting m)
    rw [hwait] at hnodup
    exact (nodup_cons.mp hnodup).1
  obtain ⟨n, L, c, q', hrelease, hplaced, hqueues, -⟩ := mutexRelease_next h.placed hwait
  have hqueue (m' : O) : q' (.mutexWaiting m') = if m' = m then us else q (.mutexWaiting m') := by
    rw [hqueues (.mutexWaiting m') trivial, update_apply]
    simp only [ListName.mutexWaiting.injEq]
  have hmem (m' : O) (t : T) : t ∈ q' (.mutexWaiting m') ↔ t ∈ q (.mutexWaiting m') ∧ t ≠ u := by
    rw [hqueue]
    split
    · rename_i hm
      subst hm
      rw [hwait, mem_cons]
      constructor
      · intro ht
        refine ⟨.inr ht, ?_⟩
        rintro rfl
        exact hus ht
      · exact fun ⟨ht, htu⟩ => ht.resolve_left htu
    · rename_i hm
      refine ⟨fun ht => ⟨ht, ?_⟩, And.left⟩
      rintro rfl
      exact hm (ListName.mutexWaiting.inj (h.placed.holds.apart ht hu))
  refine ⟨_, by rw [State.release, hrelease, hhead, hheld, erase_cons_head]; rfl, q', ?_⟩
  refine h.change (hplaced.frame rfl) ?asleep
    (fun m' hm => ⟨update_of_ne hm .., (hqueue m').trans (if_neg hm), fun _ => Iff.rfl⟩)
    (update_self ..) (fun t ht => h.called m t ((hmem m t).mp ht).1) ?woken ?owned nofun ?order
  case asleep =>
    intro m' t
    rw [hmem, h.asleep]
    change _ ↔ update s.kernel.status u .active t = .mutexSleep ∧ _
    by_cases htu : t = u
    · subst htu
      simp
    · simp [htu]
  case woken =>
    intro t hinside hoff
    by_cases htu : t = u
    · exact ⟨congrArg some htu.symm, rfl⟩
    · have hwoken := h.woken m t hinside fun ht => hoff ((hmem m t).mpr ⟨ht, htu⟩)
      cases hheld.symm.trans hwoken.2
  case owned =>
    rintro t ⟨⟩
    exact .inr ⟨rfl, h.called m u hu⟩
  case order =>
    intro m'
    rw [hqueue, h.order]
    by_cases hm : m' = m
    · subst hm
      rw [update_self, if_pos rfl, hwait]
      simp
    · rw [update_of_ne hm, if_neg hm]

theorem resume_inv (h : Inv s q) (hact : s.kernel.status s.kernel.cur = .active)
    (hcall : s.inside s.kernel.cur = some m) : Inv (s.resume m) q := by
  have hoff (l : ListName O) : s.kernel.cur ∉ q l := h.placed.cur_off hact
  obtain ⟨howner, hheld⟩ := h.woken m _ hcall (hoff _)
  rw [State.resume, hheld]
  refine h.change (h.placed.frame rfl) ?asleep (fun m' hm => ⟨rfl, rfl, fun t => ?other⟩) howner
    ?called ?woken ?owned nofun h.order
  case asleep =>
    intro m' t
    change _ ↔ s.kernel.status t = .mutexSleep ∧
      update s.kernel.waitPointer s.kernel.cur none t = some m'
    by_cases ht : t = s.kernel.cur
    · subst ht
      simp [hoff, hact]
    · rw [update_of_ne ht]
      exact h.asleep m' t
  case other =>
    by_cases ht : t = s.kernel.cur
    · simp [ht, hcall, hm.symm]
    · rw [update_of_ne ht]
  case called =>
    intro t ht
    refine (update_of_ne ?_ ..).trans (h.called m t ht)
    rintro rfl
    exact hoff _ ht
  case woken =>
    intro t hinside ht
    have hne : t ≠ s.kernel.cur := by
      rintro rfl
      cases (update_self ..).symm.trans hinside
    rw [update_of_ne hne] at hinside
    cases hne (some.inj ((h.woken m t hinside ht).1.symm.trans howner))
  case owned =>
    rintro t ⟨⟩
    exact .inl rfl

theorem step_inv (s : State T O) (c : Call T O) (h : ∃ q, Inv s q) (hlegal : Legal s c) :
    ∃ s', step s c = some s' ∧ ∃ q, Inv s' q := by
  obtain ⟨q, h⟩ := h
  cases c with
  | acquire m =>
    refine ⟨_, rfl, ?_⟩
    by_cases howner : s.kernel.mutexOwner m = none
    · exact ⟨q, take_inv h howner⟩
    · exact wait_inv h hlegal howner
  | release m =>
    obtain ⟨⟨-, hcall⟩, howner⟩ := hlegal
    have hheld : s.holders m = [s.kernel.cur] := by
      refine (h.owned m _ howner).resolve_right fun hwoken => ?_
      cases hcall.symm.trans hwoken.2
    cases hwait : q (.mutexWaiting m) with
    | nil => exact release_free h hheld hwait
    | cons u us => exact release_next h hheld hwait
  | resume =>
    obtain ⟨hact, hcall⟩ := hlegal
    obtain ⟨m, hm⟩ := ne_none_iff_exists'.mp hcall
    refine ⟨s.resume m, ?_, q, resume_inv h hact hm⟩
    rw [step, hm]
    rfl
  | dispatch t =>
    obtain ⟨n, L, q', heq, hplaced, hother⟩ := dispatch_spec h.placed hlegal
    have hqueue (m : O) : q' (.mutexWaiting m) = q (.mutexWaiting m) :=
      (hother _ fun p => by simp).2
    refine ⟨_, map_eq_some_iff.mpr ⟨_, heq, rfl⟩, q', hplaced, ?_, ?_, ?_, h.owned, ?_, ?_⟩
    all_goals
      intro m
      rw [hqueue]
    · exact h.asleep m
    · exact h.called m
    · exact h.woken m
    · exact h.free m
    · exact h.order m

structure Start (s : State T O) (q : ListName O → List T) : Prop where
  placed : Placed s.kernel q
  awake : ∀ t, s.kernel.status t ≠ .mutexSleep
  unowned : ∀ m, s.kernel.mutexOwner m = none
  inside : ∀ t, s.inside t = none
  holders : ∀ m, s.holders m = []
  arrivals : ∀ m, s.arrivals m = []
  grants : ∀ m, s.grants m = []

omit [DecidableEq T] [DecidableEq O] in
theorem Start.inv (h : Start s q) : Inv s q := by
  have hempty (m : O) : q (.mutexWaiting m) = [] := by
    refine eq_nil_iff_forall_not_mem.mpr fun t ht => ?_
    exact h.awake t (h.placed.kind ht)
  constructor
  case placed => exact h.placed
  case asleep =>
    intro m t
    rw [hempty]
    simp [h.awake]
  case called =>
    intro m t ht
    rw [hempty] at ht
    cases ht
  case woken =>
    intro m t hinside
    cases (h.inside t).symm.trans hinside
  case owned =>
    intro m t howner
    cases (h.unowned m).symm.trans howner
  case free => exact fun m _ => ⟨h.holders m, hempty m⟩
  case order =>
    intro m
    rw [h.arrivals, h.grants, hempty]
    rfl

/-- No run of calls fails, and in the state it reaches every mutex is exclusive and has been
handed over in order. -/
theorem mutexes_exclusive {calls : List (Call T O)} (hstart : Start s q)
    (hlegal : Along step Legal s calls) :
    ∃ s', run step s calls = some s' ∧ ∀ m, ∃ waiting, Exclusive s' m waiting := by
  obtain ⟨s', hs', q', hinv⟩ := run_total step_inv ⟨q, hstart.inv⟩ hlegal
  exact ⟨s', hs', fun m => ⟨_, hinv.exclusive m⟩⟩

instance (s : State T O) : DecidablePred (Legal s) := fun c => by
  cases c <;> dsimp only [Legal, Free] <;> infer_instance

def sampleState : State (Fin 3) Unit :=
  ⟨ready (fun _ => ()) 0 [1, 2], fun _ => none, fun _ => [], fun _ => [], fun _ => []⟩

theorem sampleState_start : Start sampleState (readyLists [1, 2]) := by
  constructor
  case placed => exact ready_placed _ (by decide) (by decide)
  all_goals decide

def sampleCalls : List (Call (Fin 3) Unit) :=
  [.acquire (), .dispatch 2, .acquire (), .dispatch 1, .acquire (), .dispatch 0, .release (),
    .dispatch 2, .resume]

theorem sample_mutex_exclusive : ∃ s, run step sampleState sampleCalls = some s ∧
    (∀ m, ∃ waiting, Exclusive s m waiting) ∧ s.holders () = [2] ∧ s.arrivals () = [2, 1] := by
  have hlegal : Along step Legal sampleState sampleCalls := by decide +kernel
  obtain ⟨s, hs, hexclusive⟩ := mutexes_exclusive sampleState_start hlegal
  have heval : (run step sampleState sampleCalls).map (fun s => (s.holders (), s.arrivals ())) =
      some ([2], [2, 1]) := by decide +kernel
  rw [hs] at heval
  obtain ⟨hholders, harrivals⟩ := Prod.mk.inj (some.inj heval)
  exact ⟨s, hs, hexclusive, hholders, harrivals⟩

end MutexHandOver
