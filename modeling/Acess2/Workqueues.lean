import Acess2.GuardedRuns
import Acess2.LocksModel
import Acess2.ThreadsQueues

/-! Work queues (`workqueue.c`): items wait for consumers, or consumers for items.
`Workqueue_AddWork` wakes one sleeper for each item that it adds, but a woken consumer finds
nothing when another has taken the item before it looks again. -/
namespace Workqueues

open Function GuardedRuns IntrusiveLists List Option ThreadsModel ThreadsQueues Finset

section Items

variable {W ι : Type} [DecidableEq W]

def enqueueLinks (next : W → Option W) (e : Ends W) (x : W) : W → Option W :=
  match e.tail with
  | some last => update (update next last (some x)) x none
  | none => update next x none

def enqueueEnds (e : Ends W) (x : W) : Ends W :=
  match e.tail with
  | some _ => ⟨e.head, some x⟩
  | none => ⟨some x, some x⟩

def dequeueEnds (next : W → Option W) (e : Ends W) (ret : W) : Ends W :=
  ⟨next ret, if e.tail = some ret then none else e.tail⟩

variable {next : W → Option W} {ends : ι → Ends W} {q : ι → List W} {i : ι} {x : W} {xs : List W}

omit [DecidableEq W] in
theorem enqueueEnds_tail (e : Ends W) (x : W) : (enqueueEnds e x).tail = some x := by
  rw [enqueueEnds]
  split
  · rfl
  · rfl

variable (h : Holds next ends q) (htail : (ends i).tail = (q i).getLast?)
include h htail

theorem enqueue_holds [DecidableEq ι] (hoff : ∀ j, x ∉ q j) :
    Holds (enqueueLinks next (ends i) x) (update ends i (enqueueEnds (ends i) x))
      (update q i (q i ++ [x])) := by
  have hhead := h.head_eq i
  have hends := enqueueEnds_tail (ends i) x
  cases hlast : (q i).getLast? with
  | none =>
    rw [hlast] at htail
    have hlinks : enqueueLinks next (ends i) x = update next x none := by
      rw [enqueueLinks, htail]
    refine h.append hoff ?_ ?_ ?_ ?_ hends
    · rw [hlinks, update_self]
    · intro t ht
      cases hlast.symm.trans ht
    · intro y hy _
      rw [hlinks, update_of_ne hy]
    · rw [enqueueEnds, htail, getLast?_eq_none_iff.mp hlast]
      rfl
  | some last =>
    rw [hlast] at htail
    have hmem : last ∈ q i := mem_of_getLast? hlast
    have hlinks : enqueueLinks next (ends i) x = update (update next last (some x)) x none := by
      rw [enqueueLinks, htail]
    have hne : last ≠ x := by
      rintro rfl
      exact hoff i hmem
    refine h.append hoff ?_ ?_ ?_ ?_ hends
    · rw [hlinks, update_self]
    · intro t ht
      cases hlast.symm.trans ht
      rw [hlinks, update_of_ne hne, update_self]
    · intro y hy hyl
      have hyl' : y ≠ last := by
        rintro rfl
        exact hyl hlast
      rw [hlinks, update_of_ne hy, update_of_ne hyl']
    · obtain ⟨y, ys, hq⟩ := exists_cons_of_ne_nil (ne_nil_of_mem hmem)
      rw [enqueueEnds, htail, hhead, hq]
      rfl

theorem dequeueEnds_tail
    (hq : q i = x :: xs) : (dequeueEnds next (ends i) x).tail = xs.getLast? := by
  have hnodup := h.nodup i
  rw [hq] at hnodup htail
  rw [dequeueEnds]
  cases xs with
  | nil => simp [htail]
  | cons y ys =>
    have hne : (y :: ys).getLast? ≠ some x := fun hlast =>
      (nodup_cons.mp hnodup).1 (mem_of_getLast? hlast)
    rw [htail, getLast?_cons_cons]
    exact if_neg hne

theorem dequeue_holds [DecidableEq ι] (hq : q i = x :: xs) :
    Holds next (update ends i (dequeueEnds next (ends i) x)) (update q i xs) := by
  have hlinked := h.linked i
  rw [hq] at hlinked
  refine h.pop hq (fun _ _ => rfl) ?_ fun _ => dequeueEnds_tail h htail hq
  exact hlinked.2.head_eq

end Items

variable {T O W : Type} [DecidableEq T] [DecidableEq O] [DecidableEq W]

/-- The queued items: the links inside them, and `Head` and `Tail` of each queue -/
structure Items (O W : Type) where
  next : W → Option W
  ends : O → Ends W

def Items.enqueue (items : Items O W) (w : O) (x : W) : Items O W :=
  ⟨enqueueLinks items.next (items.ends w) x, update items.ends w (enqueueEnds (items.ends w) x)⟩

def Items.dequeue (items : Items O W) (w : O) : Option (W × Items O W) :=
  (items.ends w).head.map fun ret => (ret, { items with
      ends := update items.ends w (dequeueEnds items.next (items.ends w) ret) })

/-- `Workqueue_GetWork` from the lock to its return or its sleep -/
def workqueueGetWork (k : Kernel T O) (items : Items O W) (w : O) :
    Option W × Kernel T O × Items O W :=
  match items.dequeue w with
  | some (ret, items) => (some ret, k, items)
  | none => (none, threadsIntSleep k .queueSleep (some w) 0 (.queue (.queueSleeper w)), items)

/-- The first sleeper is woken; its link is read before `Threads_AddActive` uses the field. -/
def wakeSleeper (k : Kernel T O) (w : O) : Option (Kernel T O) :=
  match (k.lists (.queueSleeper w)).head with
  | none => some k
  | some sleeper =>
    -- ASSERTC
    if k.status sleeper = .active then none
    else do
      let nextSleeper := k.next sleeper
      let k ← threadsAddActive k sleeper
      let tail := if nextSleeper = none then none else (k.lists (.queueSleeper w)).tail
      some (k.setList (.queueSleeper w) ⟨nextSleeper, tail⟩)

def workqueueAddWork (k : Kernel T O) (items : Items O W) (w : O) (x : W) :
    Option (Kernel T O × Items O W) :=
  (wakeSleeper k w).map fun k => (k, items.enqueue w x)

variable {k : Kernel T O} {q : ListName O → List T} {t : T} {l : ListName O}

theorem threadsIntAddToList_setList {l' : ListName O} (hne : l' ≠ l) (e : ThreadList T) :
    threadsIntAddToList (k.setList l e) l' t =
      (threadsIntAddToList k l' t).map (·.setList l e) := by
  have hlist : (k.setList l e).lists l' = k.lists l' := update_of_ne hne _ _
  have hcomm (e' : ThreadList T) : update (update k.lists l e) l' e' =
        update (update k.lists l' e') l e := update_comm hne.symm _ _ _
  rw [threadsIntAddToList, threadsIntAddToList, hlist]
  cases (k.lists l').head with
  | none => simp [Kernel.setList, Kernel.setNext, hcomm]
  | some h =>
    cases (k.lists l').tail with
    | none => rfl
    | some last => simp [Kernel.setList, Kernel.setNext, hcomm]

theorem threadsAddActive_setList (hl : IsWait l) (hs : k.status t ≠ .active) (e : ThreadList T) :
    threadsAddActive (k.setList l e) t = (threadsAddActive k t).map (·.setList l e) := by
  by_cases hcur : t = k.cur
  · subst hcur
    rw [threadsAddActive_cur hs]
    exact threadsAddActive_cur (k := k.setList l e) hs
  · have hadd := threadsIntAddToList_setList (k := k.setStatus t .active) (t := t)
      (hl.ne_active (k.priority t)).symm e
    rw [threadsAddActive_other hs hcur, threadsAddActive_other (k := k.setList l e) hs hcur,
      Option.map_map]
    exact (congrArg (Option.map _) hadd).trans (Option.map_map _ _ _)

variable [Fintype T] {w : O}

theorem wakeSleeper_nobody (h : Placed k q) (hq : q (.queueSleeper w) = []) :
    wakeSleeper k w = some k := by
  have hhead := h.holds.head_eq (.queueSleeper w)
  rw [hq] at hhead
  rw [wakeSleeper, hhead]
  rfl

theorem wakeSleeper_next (h : Placed k q) {u : T} {us : List T}
    (hq : q (.queueSleeper w) = u :: us) :
    ∃ n L c q', let k' := { k with
        next := n, lists := L, numActive := c, status := update k.status u .active }
      wakeSleeper k w = some k' ∧ Placed k' q' ∧
      ∀ l, IsWait l → q' l = update q (.queueSleeper w) us l := by
  have hhead := h.holds.head_eq (.queueSleeper w)
  rw [hq] at hhead
  have hst : k.status u = .queueSleep := h.kind (l := .queueSleeper w) (by simp [hq])
  have hs : k.status u ≠ .active := by simp [hst]
  obtain ⟨hpop, hoff⟩ := h.pop_wait (l := .queueSleeper w) trivial hq
    (e := ⟨k.next u, if k.next u = none then none else (k.lists (.queueSleeper w)).tail⟩) rfl
    (h.tail_popped (l := .queueSleeper w) trivial hq)
  obtain ⟨n, L, q', hwake, hplaced, hsame⟩ := threadsAddActive_spec hpop (t := u) hs hoff
  refine ⟨n, L, _, q', ?_, hplaced, fun l hl => (hsame l hl.ne_active).2⟩
  rw [threadsAddActive_setList (l := .queueSleeper w) trivial hs] at hwake
  obtain ⟨k₁, hk₁, hset⟩ := map_eq_some_iff.mp hwake
  have hlist : k₁.lists (.queueSleeper w) = k.lists (.queueSleeper w) :=
    (threadsAddActive_waits h.holds hk₁ (l := .queueSleeper w) trivial).1
  have hrest : wakeSleeper k w = (threadsAddActive k u).bind fun k₁ =>
      some (k₁.setList (.queueSleeper w)
        ⟨k.next u, if k.next u = none then none else (k₁.lists (.queueSleeper w)).tail⟩) := by
    rw [wakeSleeper, hhead]
    exact if_neg hs
  rw [hrest, hk₁, bind_some, hlist, hset]
  rfl

structure State (T O W : Type) where
  kernel : Kernel T O
  items : Items O W
  /-- the queue that a thread is in `Workqueue_GetWork` for -/
  inside : T → Option O
  /-- items added to the queue, in order -/
  added : O → List W
  /-- items that `Workqueue_GetWork` returned, in order -/
  returned : O → List W

inductive Call (T O W : Type) where
  /-- by a thread or an interrupt -/
  | addWork (queue : O) (item : W)
  | getWork (queue : O)
  /-- the current thread goes round again in `Workqueue_GetWork` -/
  | resume
  | dispatch (t : T)

def State.addWork (s : State T O W) (w : O) (x : W) : Option (State T O W) :=
  (workqueueAddWork s.kernel s.items w x).map fun (k, items) =>
    { s with kernel := k, items := items, added := update s.added w (s.added w ++ [x]) }

def State.getWork (s : State T O W) (w : O) : State T O W :=
  match workqueueGetWork s.kernel s.items w with
  | (some ret, k, items) =>
    { s with
      kernel := k, items := items
      inside := update s.inside s.kernel.cur none
      returned := update s.returned w (s.returned w ++ [ret]) }
  | (none, k, items) =>
    { s with
      kernel := k, items := items
      inside := update s.inside s.kernel.cur (some w) }

def State.resume (s : State T O W) (w : O) : State T O W :=
  State.getWork { s with kernel := (threadsIntSleepEnd s.kernel).2 } w

def step (s : State T O W) : Call T O W → Option (State T O W)
  | .addWork w x => s.addWork w x
  | .getWork w => some (s.getWork w)
  | .resume => (s.inside s.kernel.cur).map s.resume
  | .dispatch t => (dispatch s.kernel (s.kernel.priority t) t).map fun k => { s with kernel := k }

def State.queued (s : State T O W) (w : O) : List W := (s.added w).drop (s.returned w).length

/-- Only an item that is not queued is added, and a running thread makes one call at a time. -/
def Legal (s : State T O W) : Call T O W → Prop
  | .addWork _ x => ∀ w, x ∉ s.queued w
  | .getWork _ => s.kernel.status s.kernel.cur = .active ∧ s.inside s.kernel.cur = none
  | .resume => s.kernel.status s.kernel.cur = .active ∧ s.inside s.kernel.cur ≠ none
  | .dispatch t => s.kernel.status t = .active

def woken (s : State T O W) (w : O) : Finset T :=
  Finset.univ.filter fun t => s.inside t = some w ∧ s.kernel.status t = .active

/-- One queue: `queued` and `asleep` are what the walks along its two lists meet. -/
structure Delivers (s : State T O W) (w : O) (queued : List W) (asleep : List T) : Prop where
  items : Linked s.items.next (s.items.ends w).head queued
  tail : (s.items.ends w).tail = queued.getLast?
  /-- returned in the order they were added, each once -/
  order : s.added w = s.returned w ++ queued
  sleepers : Linked s.kernel.next (s.kernel.lists (.queueSleeper w)).head asleep
  sleepTail : (s.kernel.lists (.queueSleeper w)).tail = asleep.getLast?
  consumers : ∀ t, s.inside t = some w ↔ t ∈ asleep ∨ t ∈ woken s w
  /-- no wake-up is lost -/
  wakeups : asleep ≠ [] → queued.length ≤ (woken s w).card

variable {s : State T O W} {q' : ListName O → List T} {items : O → List W}
variable {x : W}

structure Inv (s : State T O W) (q : ListName O → List T) (items : O → List W) : Prop where
  placed : Placed s.kernel q
  holds : Holds s.items.next s.items.ends items
  tail : ∀ w, (s.items.ends w).tail = (items w).getLast?
  order : ∀ w, s.added w = s.returned w ++ items w
  called : ∀ w t, t ∈ q (.queueSleeper w) → s.inside t = some w
  awake : ∀ w t, s.inside t = some w → t ∉ q (.queueSleeper w) → s.kernel.status t = .active
  wakeups : ∀ w, q (.queueSleeper w) ≠ [] → (items w).length ≤ (woken s w).card

omit [DecidableEq W] in
theorem Inv.delivers (h : Inv s q items) (w : O) :
    Delivers s w (items w) (q (.queueSleeper w)) := by
  constructor
  case items => exact h.holds.linked w
  case tail => exact h.tail w
  case order => exact h.order w
  case sleepers => exact h.placed.holds.linked _
  case sleepTail => exact h.placed.waitTail trivial
  case wakeups => exact h.wakeups w
  case consumers =>
    intro t
    constructor
    · intro hinside
      by_cases ht : t ∈ q (.queueSleeper w)
      · exact .inl ht
      · exact .inr (by simp [woken, hinside, h.awake w t hinside ht])
    · rintro (ht | ht)
      · exact h.called w t ht
      · exact (mem_filter.mp ht).2.1

omit [DecidableEq T] [DecidableEq W] in
theorem Inv.queued_eq (h : Inv s q items) (w : O) : s.queued w = items w := by
  rw [State.queued, h.order, drop_left]

variable {s' : State T O W} {u : T}

omit [DecidableEq W] in
theorem woken_wake (hinside : s'.inside = s.inside)
    (hstatus : s'.kernel.status = update s.kernel.status u .active)
    (hu : s.inside u = some w) : woken s' w = insert u (woken s w) := by
  ext t
  by_cases ht : t = u
  · simp [woken, hinside, hstatus, ht, hu]
  · simp [woken, hinside, hstatus, ht]

omit [DecidableEq W] in
theorem woken_leave (hinside : s'.inside = update s.inside u none)
    (hstatus : s'.kernel.status = s.kernel.status) : woken s' w = (woken s w).erase u := by
  ext t
  by_cases ht : t = u
  · simp [woken, hinside, ht]
  · simp [woken, hinside, hstatus, ht]

omit [DecidableEq T] in
theorem Inv.enqueue (h : Inv s q items) (w : O) (hx : ∀ w, x ∉ items w) :
    Holds (s.items.enqueue w x).next (s.items.enqueue w x).ends (update items w (items w ++ [x])) ∧
    (∀ w', ((s.items.enqueue w x).ends w').tail = (update items w (items w ++ [x]) w').getLast?) ∧
    ∀ w', update s.added w (s.added w ++ [x]) w' =
      s.returned w' ++ update items w (items w ++ [x]) w' := by
  refine ⟨enqueue_holds h.holds (h.tail w) hx, fun w' => ?_, fun w' => ?_⟩
  · change (update s.items.ends w _ w').tail = _
    by_cases hw : w' = w
    · subst hw
      rw [update_self, update_self, enqueueEnds_tail, getLast?_concat]
    · rw [update_of_ne hw, update_of_ne hw]
      exact h.tail w'
  · by_cases hw : w' = w
    · subst hw
      rw [update_self, update_self, h.order, append_assoc]
    · rw [update_of_ne hw, update_of_ne hw]
      exact h.order w'

omit [Fintype T] in
theorem addWork_eq (hwake : wakeSleeper s.kernel w = some k) : s.addWork w x = some { s with
      kernel := k, items := s.items.enqueue w x
      added := update s.added w (s.added w ++ [x]) } := by
  rw [State.addWork, workqueueAddWork, hwake]
  rfl

theorem addWork_inv (h : Inv s q items) (hx : ∀ w, x ∉ items w) :
    ∃ s', s.addWork w x = some s' ∧ ∃ q items, Inv s' q items := by
  obtain ⟨hholds, htail, horder⟩ := h.enqueue w hx
  cases hq : q (.queueSleeper w) with
  | nil =>
    refine ⟨_, addWork_eq (wakeSleeper_nobody h.placed hq), q, _, h.placed, hholds, htail, horder,
      h.called, h.awake, fun w' hw' => ?_⟩
    have hw : w' ≠ w := by
      rintro rfl
      exact hw' hq
    rw [update_of_ne hw]
    exact h.wakeups w' hw'
  | cons u us =>
    obtain ⟨n, L, c, q', hwake, hplaced, hqueues⟩ := wakeSleeper_next h.placed hq
    have hqueue (w' : O) : q' (.queueSleeper w') = if w' = w then us else q (.queueSleeper w') := by
      rw [hqueues (.queueSleeper w') trivial, update_apply]
      simp only [ListName.queueSleeper.injEq]
    have hsub {w' : O} {t : T} (ht : t ∈ q' (.queueSleeper w')) : t ∈ q (.queueSleeper w') := by
      rw [hqueue] at ht
      split at ht
      · rename_i hw
        rw [hw, hq]
        exact mem_cons_of_mem u ht
      · exact ht
    have hmem : u ∈ q (.queueSleeper w) := by simp [hq]
    have hasleep : s.kernel.status u ≠ .active := by simp [h.placed.kind hmem, ListName.status]
    refine ⟨_, addWork_eq hwake, q', update items w (items w ++ [x]), ?_⟩
    constructor
    case placed => exact hplaced
    case holds => exact hholds
    case tail => exact htail
    case order => exact horder
    case called => exact fun w' t ht => h.called w' t (hsub ht)
    case awake =>
      intro w' t hinside ht
      change update s.kernel.status u .active t = .active
      by_cases htu : t = u
      · rw [htu, update_self]
      rw [update_of_ne htu]
      refine h.awake w' t hinside fun hold => ht ?_
      rw [hqueue]
      split
      · rename_i hw
        rw [hw, hq] at hold
        exact (mem_cons.mp hold).resolve_left htu
      · exact hold
    case wakeups =>
      intro w' hne
      by_cases hw : w' = w
      · -- one more item, and one more consumer that will look
        subst hw
        have hnew : u ∉ woken s w' := by simp [woken, hasleep]
        have hlen := h.wakeups w' (by simp [hq])
        rw [woken_wake (s := s) (u := u) ?_ ?_ (h.called w' u hmem),
          card_insert_of_notMem hnew, update_self, length_append]
        · exact Nat.add_le_add_right hlen 1
        · rfl
        · rfl
      have hne' : q (.queueSleeper w') ≠ [] := by
        rw [hqueue, if_neg hw] at hne
        exact hne
      rw [update_of_ne hw]
      refine (h.wakeups w' hne').trans (card_le_card fun t ht => ?_)
      have htu : t ≠ u := by
        rintro rfl
        exact hasleep (mem_filter.mp ht).2.2
      simpa [woken, htu] using ht

def Looks (s : State T O W) (w : O) : Prop :=
  s.kernel.status s.kernel.cur = .active ∧
    (s.inside s.kernel.cur = none ∨ s.inside s.kernel.cur = some w)

omit [DecidableEq T] [DecidableEq O] [DecidableEq W] [Fintype T] in
theorem Looks.other {w' : O} (h : Looks s w) (hw : w' ≠ w) : s.inside s.kernel.cur ≠ some w' := by
  intro hinside
  rcases h.2 with hnone | hsome
  · cases hnone.symm.trans hinside
  · exact hw (some.inj (hinside.symm.trans hsome))

section

variable (h : Inv s q items) (hlooks : Looks s w)
include h hlooks

theorem take_inv {xs : List W} (hitems : items w = x :: xs) :
    ∃ q items, Inv (s.getWork w) q items := by
  have hhead : (s.items.ends w).head = some x := by
    rw [h.holds.head_eq, hitems]
    rfl
  have hget : s.getWork w = { s with
      items := { s.items with
        ends := update s.items.ends w (dequeueEnds s.items.next (s.items.ends w) x) }
      inside := update s.inside s.kernel.cur none
      returned := update s.returned w (s.returned w ++ [x]) } := by
    rw [State.getWork, workqueueGetWork, Items.dequeue, hhead]
    rfl
  have hoff (l : ListName O) : s.kernel.cur ∉ q l := h.placed.cur_off hlooks.1
  rw [hget]
  refine ⟨q, update items w xs, ?_⟩
  constructor
  case placed => exact h.placed
  case holds => exact dequeue_holds h.holds (h.tail w) hitems
  case tail =>
    intro w'
    change (update s.items.ends w _ w').tail = _
    by_cases hw : w' = w
    · subst hw
      rw [update_self, update_self]
      exact dequeueEnds_tail h.holds (h.tail w') hitems
    · rw [update_of_ne hw, update_of_ne hw]
      exact h.tail w'
  case order =>
    intro w'
    change s.added w' = update s.returned w _ w' ++ _
    by_cases hw : w' = w
    · subst hw
      rw [update_self, update_self, h.order, hitems, append_cons]
    · rw [update_of_ne hw, update_of_ne hw]
      exact h.order w'
  case called =>
    intro w' t ht
    refine (update_of_ne ?_ _ _).trans (h.called w' t ht)
    rintro rfl
    exact hoff _ ht
  case awake =>
    intro w' t hinside ht
    refine h.awake w' t ?_ ht
    by_cases htc : t = s.kernel.cur
    · rw [htc] at hinside
      cases (update_self _ _ _).symm.trans hinside
    · exact (update_of_ne htc _ _).symm.trans hinside
  case wakeups =>
    intro w' hne
    have hold := h.wakeups w' hne
    rw [woken_leave (s := s) (u := s.kernel.cur) ?_ ?_]
    rotate_left
    · rfl
    · rfl
    by_cases hw : w' = w
    · subst hw
      rw [hitems, length_cons] at hold
      rw [update_self]
      have herase := pred_card_le_card_erase (s := woken s w') (a := s.kernel.cur)
      omega
    · have hcur : s.kernel.cur ∉ woken s w' := fun hmem =>
        hlooks.other hw (mem_filter.mp hmem).2.1
      rw [update_of_ne hw, erase_eq_of_notMem hcur]
      exact hold

theorem sleep_inv (hitems : items w = []) : ∃ q items, Inv (s.getWork w) q items := by
  have hhead : (s.items.ends w).head = none := by
    rw [h.holds.head_eq, hitems]
    rfl
  obtain ⟨n, e, hsleep, hplaced⟩ :=
    threadsIntSleep_queue (some w) 0 h.placed (l := .queueSleeper w) trivial hlooks.1
  have hoff (l : ListName O) : s.kernel.cur ∉ q l := h.placed.cur_off hlooks.1
  have hqueue (w' : O) (t : T) :
      t ∈ update q (.queueSleeper w) (q (.queueSleeper w) ++ [s.kernel.cur])
        (.queueSleeper w') ↔ t ∈ q (.queueSleeper w') ∨ (w' = w ∧ t = s.kernel.cur) := by
    simp [mem_update_concat]
  have hget : s.getWork w = { s with
      kernel := threadsIntSleep s.kernel .queueSleep (some w) 0 (.queue (.queueSleeper w))
      inside := update s.inside s.kernel.cur (some w) } := by
    rw [State.getWork, workqueueGetWork, Items.dequeue, hhead]
    rfl
  have hsleep' : threadsIntSleep s.kernel .queueSleep (some w) 0 (.queue (.queueSleeper w)) = _ :=
    hsleep
  rw [hget, hsleep']
  refine ⟨_, items, hplaced.frame rfl, h.holds, h.tail, h.order, ?_, ?_, ?_⟩
  · intro w' t ht
    change update s.inside s.kernel.cur (some w) t = some w'
    rcases (hqueue w' t).mp ht with hmem | ⟨rfl, rfl⟩
    · rw [update_of_ne ?_, h.called w' t hmem]
      rintro rfl
      exact hoff _ hmem
    · exact update_self _ _ _
  · intro w' t hinside ht
    change update s.inside s.kernel.cur (some w) t = some w' at hinside
    change update s.kernel.status s.kernel.cur .queueSleep t = .active
    rw [hqueue, not_or] at ht
    have hne : t ≠ s.kernel.cur := by
      rintro rfl
      rw [update_self] at hinside
      exact ht.2 ⟨(some.inj hinside).symm, rfl⟩
    rw [update_of_ne hne] at hinside ⊢
    exact h.awake w' t hinside ht.1
  · intro w' hne
    by_cases hw : w' = w
    · rw [hw, hitems]
      exact Nat.zero_le _
    rw [update_of_ne (by simpa using hw)] at hne
    refine (h.wakeups w' hne).trans (card_le_card fun t ht => ?_)
    have htc : t ≠ s.kernel.cur := by
      rintro rfl
      exact hlooks.other hw (mem_filter.mp ht).2.1
    simpa [woken, htc] using ht

theorem getWork_inv : ∃ q items, Inv (s.getWork w) q items := by
  cases hitems : items w with
  | nil => exact sleep_inv h hlooks hitems
  | cons x xs => exact take_inv h hlooks hitems

end

theorem step_inv (s : State T O W) (c : Call T O W) (h : ∃ q items, Inv s q items)
    (hlegal : Legal s c) : ∃ s', step s c = some s' ∧ ∃ q items, Inv s' q items := by
  obtain ⟨q, items, h⟩ := h
  cases c with
  | addWork w x =>
    have hx (w' : O) : x ∉ items w' := by
      rw [← h.queued_eq]
      exact hlegal w'
    exact addWork_inv h hx
  | getWork w => exact ⟨_, rfl, getWork_inv h ⟨hlegal.1, .inl hlegal.2⟩⟩
  | resume =>
    obtain ⟨hact, hcall⟩ := hlegal
    obtain ⟨w, hw⟩ := ne_none_iff_exists'.mp hcall
    refine ⟨s.resume w, ?_, ?_⟩
    · rw [step, hw]
      rfl
    · have hend : Inv { s with kernel := (threadsIntSleepEnd s.kernel).2 } q items :=
        ⟨h.placed.frame rfl, h.holds, h.tail, h.order, h.called, h.awake, h.wakeups⟩
      exact getWork_inv hend ⟨hact, .inr hw⟩
  | dispatch t =>
    obtain ⟨n, L, q', heq, hplaced, hother⟩ := dispatch_spec h.placed hlegal
    have hqueue (w : O) : q' (.queueSleeper w) = q (.queueSleeper w) :=
      (hother _ fun p => by simp).2
    refine ⟨_, map_eq_some_iff.mpr ⟨_, heq, rfl⟩, q', items, hplaced, h.holds, h.tail,
      h.order, ?_, ?_, ?_⟩
    all_goals
      intro w
      rw [hqueue]
    · exact h.called w
    · exact h.awake w
    · exact h.wakeups w

/-- Queues after `Workqueue_Init`, among threads whose lists are in order -/
structure Start (s : State T O W) (q : ListName O → List T) : Prop where
  placed : Placed s.kernel q
  sleepers : ∀ w, s.kernel.lists (.queueSleeper w) = ⟨none, none⟩
  ends : ∀ w, s.items.ends w = ⟨none, none⟩
  inside : ∀ t, s.inside t = none
  added : ∀ w, s.added w = []
  returned : ∀ w, s.returned w = []

omit [DecidableEq T] [DecidableEq W] in
theorem Start.inv (h : Start s q) : Inv s q (fun _ => []) := by
  have hempty (w : O) : q (.queueSleeper w) = [] := by
    have hhead := h.placed.holds.head_eq (.queueSleeper w)
    rw [h.sleepers] at hhead
    exact head?_eq_none_iff.mp hhead.symm
  constructor
  case placed => exact h.placed
  case holds =>
    constructor
    case linked =>
      intro w
      rw [h.ends]
      rfl
    case nodup => exact fun _ => nodup_nil
    case apart => exact fun hx => (by cases hx)
    case tail => exact fun _ hne => absurd rfl hne
  case tail =>
    intro w
    rw [h.ends]
    rfl
  case order =>
    intro w
    rw [h.added, h.returned]
    rfl
  case called =>
    intro w t ht
    rw [hempty] at ht
    cases ht
  case awake =>
    intro w t hinside
    cases (h.inside t).symm.trans hinside
  case wakeups => exact fun w _ => Nat.zero_le _

/-- In every state a run reaches, every queue has delivered its items in order and owes its sleepers
no wake-up. -/
theorem queues_deliver {calls : List (Call T O W)} (hstart : Start s q)
    (hlegal : Along step Legal s calls) :
    ∃ s', run step s calls = some s' ∧ ∀ w, ∃ queued asleep, Delivers s' w queued asleep := by
  obtain ⟨s', hs', q', items, hinv⟩ := run_total step_inv ⟨q, _, hstart.inv⟩ hlegal
  exact ⟨s', hs', fun w => ⟨_, _, hinv.delivers w⟩⟩

instance [Fintype O] (s : State T O W) : DecidablePred (Legal s) := fun c => by
  cases c <;> dsimp only [Legal] <;> infer_instance

def sampleState : State (Fin 3) Unit ℕ :=
  ⟨ready (fun _ => ()) 0 [1, 2], ⟨fun _ => none, fun _ => ⟨none, none⟩⟩, fun _ => none, fun _ => [],
    fun _ => []⟩

theorem sampleState_start : Start sampleState (readyLists [1, 2]) := by
  constructor
  case placed => exact ready_placed _ (by decide) (by decide)
  all_goals decide

def sampleCalls : List (Call (Fin 3) Unit ℕ) :=
  [.dispatch 1, .getWork (), .dispatch 0, .addWork () 7, .dispatch 2, .getWork (), .dispatch 1,
    .resume, .dispatch 0, .addWork () 8, .addWork () 9, .dispatch 1, .resume]

theorem sample_queue_delivers : ∃ s, run step sampleState sampleCalls = some s ∧
    (∀ w, ∃ queued asleep, Delivers s w queued asleep) ∧ s.returned () = [7, 8] := by
  have hlegal : Along step Legal sampleState sampleCalls := by decide +kernel
  obtain ⟨s, hs, hdelivers⟩ := queues_deliver sampleState_start hlegal
  have heval : (run step sampleState sampleCalls).map (fun s => s.returned ()) = some [7, 8] := by
    decide +kernel
  rw [hs] at heval
  exact ⟨s, hs, hdelivers, some.inj heval⟩

end Workqueues
