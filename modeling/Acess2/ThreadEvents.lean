import Acess2.GuardedRuns
import Acess2.Histories
import Acess2.LocksModel
import Acess2.ThreadsQueues

/-! Events of a thread (`events.c`) are not lost.
The decision to sleep and the mask that is waited for (kept in `RetStatus`) are made under the
lock that a post takes too, so a thread is never asleep while an event it waits for is noted. -/
namespace ThreadEvents

open Function GuardedRuns Histories List LocksModel Option ThreadsModel ThreadsQueues BitVec

inductive Entry where
  | post (mask : BitVec 32)
  /-- `Threads_WaitEvents` returned these events of the mask. -/
  | returned (mask fired : BitVec 32)
  | clear (mask : BitVec 32)
  deriving DecidableEq

def Posts (bit : ℕ) (e : Entry) : Prop := ∃ mask, e = .post mask ∧ mask.getLsbD bit = true

def Takes (bit : ℕ) : Entry → Prop
  | .post _ => False
  | .returned _ fired => fired.getLsbD bit = true
  | .clear mask => mask.getLsbD bit = true

def Entry.after (noted : BitVec 32) : Entry → BitVec 32
  | .post mask => noted ||| mask
  | .returned _ fired => noted &&& ~~~fired
  | .clear mask => noted &&& ~~~mask

def pending (log : List Entry) : BitVec 32 := log.foldl Entry.after 0

variable {bit : ℕ} {log : List Entry}

theorem pending_snoc (log : List Entry) (e : Entry) :
    pending (log ++ [e]) = e.after (pending log) := foldl_concat _ _ _ _

theorem getLsbD_without {x y : BitVec 32} (h : x.getLsbD bit = true) (hy : y.getLsbD bit ≠ true) :
    (x &&& ~~~y).getLsbD bit = true := by
  rw [getLsbD_and, getLsbD_not, h, Bool.eq_false_iff.mpr hy]
  simp [lt_of_getLsbD h]

theorem after_keeps {noted : BitVec 32} {e : Entry} (h : noted.getLsbD bit = true)
    (he : ¬ Takes bit e) : (e.after noted).getLsbD bit = true := by
  cases e with
  | post mask => simp [Entry.after, h]
  | returned mask fired | clear mask => exact getLsbD_without h he

theorem pending_kept {noted : BitVec 32} (h : noted.getLsbD bit = true)
    (hkeep : ∀ e ∈ log, ¬ Takes bit e) : (log.foldl Entry.after noted).getLsbD bit = true := by
  induction log generalizing noted with
  | nil => exact h
  | cons e log ih =>
    have hafter := after_keeps h (hkeep e mem_cons_self)
    exact ih hafter fun e' he' => hkeep e' (mem_cons_of_mem e he')

theorem pending_posted (h : (pending log).getLsbD bit = true) :
    Since (Posts bit) (Takes bit) log := by
  induction log using reverseRecOn with
  | nil => simp [pending] at h
  | append_singleton log e ih =>
    rw [pending_snoc] at h
    by_cases hnew : Posts bit e
    · exact since_last hnew
    -- the event was noted before the last entry, which does not take it
    have hold : (pending log).getLsbD bit = true ∧ ¬ Takes bit e := by
      cases e with
      | post mask =>
        have hmask : mask.getLsbD bit ≠ true := fun hmask => hnew ⟨mask, rfl, hmask⟩
        refine ⟨?_, id⟩
        simpa [Entry.after, hmask] using h
      | returned mask fired | clear mask =>
        simp only [Entry.after, getLsbD_and, getLsbD_not, Bool.and_eq_true, Bool.not_eq_true'] at h
        exact ⟨h.1, fun htakes => by simp [Takes, h.2.2] at htakes⟩
    exact (ih hold.1).snoc hold.2

variable {T O : Type} [DecidableEq T] [DecidableEq O] [Fintype T] {k : Kernel T O}
  {q : ListName O → List T} {t : T}

def roused (k : Kernel T O) (t : T) (mask : BitVec 32) : ThreadStatus :=
  if k.status t = .eventSleep ∧ BitVec.ofInt 32 (k.retStatus t) &&& mask ≠ 0 then .active
  else k.status t

theorem threadsPostEvent_spec (h : Placed k q) (hsem : k.status t ≠ .semaphoreSleep)
    (mask : BitVec 32) :
    ∃ n L c q', threadsPostEvent k t mask = some { k with
        next := n, lists := L, numActive := c
        eventState := update k.eventState t (k.eventState t ||| mask)
        status := update k.status t (roused k t mask) } ∧
      Placed { k with
        next := n, lists := L, numActive := c
        status := update k.status t (roused k t mask) } q' := by
  by_cases hzero : mask = 0
  · have hstatus : update k.status t (roused k t mask) = k.status := by
      simp [roused, hzero]
    have hevents : update k.eventState t (k.eventState t ||| mask) = k.eventState := by
      simp [hzero]
    rw [hstatus, hevents]
    exact ⟨k.next, k.lists, k.numActive, q, if_pos hzero, h⟩
  rw [threadsPostEvent, if_neg hzero]
  by_cases hwakes : k.status t = .eventSleep ∧ BitVec.ofInt 32 (k.retStatus t) &&& mask ≠ 0
  · have hoff (l : ListName O) : t ∉ q l := h.off_of_status fun l => by
      rw [hwakes.1]
      cases l <;> simp [ListName.status]
    have hact : k.status t ≠ .active := by simp [hwakes.1]
    have hnoted : Placed { k with
        eventState := update k.eventState t (k.eventState t ||| mask) } q :=
      h.frame rfl
    obtain ⟨n, L, q', hwake, hplaced, -⟩ := threadsAddActive_spec hnoted hact hoff
    rw [roused, if_pos hwakes]
    refine ⟨n, L, _, q', ?_, hplaced.frame rfl⟩
    dsimp only
    rw [hwakes.1]
    exact (if_pos hwakes.2).trans hwake
  · have hstatus : update k.status t (roused k t mask) = k.status := by
      rw [roused, if_neg hwakes, update_eq_self]
    rw [hstatus]
    refine ⟨k.next, k.lists, k.numActive, q, ?_, h⟩
    dsimp only
    split
    case h_1 hsleep => exact if_neg fun hmask => hwakes ⟨hsleep, hmask⟩
    case h_2 hsleep => exact absurd hsleep hsem
    case h_3 => rfl

structure State (T O : Type) where
  kernel : Kernel T O
  /-- the mask of the `Threads_WaitEvents` that has not returned yet -/
  inside : Option (BitVec 32)
  log : List Entry

inductive Call (T : Type) where
  /-- to the watched thread, by any thread or interrupt -/
  | post (mask : BitVec 32)
  | wait (mask : BitVec 32)
  /-- the watched thread goes on in `Threads_WaitEvents` -/
  | resume
  | clear (mask : BitVec 32)
  | dispatch (t : T)

def State.note (s : State T O) (e : Entry) : State T O := { s with log := s.log ++ [e] }

/-- `Threads_WaitEvents` by the current thread, up to its return or its sleep -/
def State.wait (s : State T O) (mask : BitVec 32) : State T O :=
  match threadsWaitEvents s.kernel mask with
  | (some fired, k) => State.note { s with kernel := k } (.returned mask fired)
  | (none, k) => { s with kernel := k, inside := some mask }

def State.resume (s : State T O) (mask : BitVec 32) : State T O :=
  let (fired, k) := threadsWaitEventsEnd (threadsIntSleepEnd s.kernel).2 mask
  State.note { s with kernel := k, inside := none } (.returned mask fired)

def step (us : T) (s : State T O) : Call T → Option (State T O)
  | .post mask => (threadsPostEvent s.kernel us mask).map fun k =>
      State.note { s with kernel := k } (.post mask)
  | .wait mask => some (s.wait mask)
  | .resume => s.inside.map s.resume
  | .clear mask => some (State.note { s with kernel := threadsClearEvent s.kernel mask }
      (.clear mask))
  | .dispatch t => (dispatch s.kernel (s.kernel.priority t) t).map fun k => { s with kernel := k }

/-- The watched thread makes its own calls, while it runs, one at a time. -/
def Legal (us : T) (s : State T O) : Call T → Prop
  | .post _ => True
  | .wait _ => s.kernel.cur = us ∧ s.kernel.status us = .active ∧ s.inside = none
  | .resume => s.kernel.cur = us ∧ s.kernel.status us = .active ∧ s.inside ≠ none
  | .clear _ => s.kernel.cur = us ∧ s.kernel.status us = .active ∧ s.inside = none
  | .dispatch t => s.kernel.status t = .active

/-- No event of the watched thread has been lost. -/
structure NoneLost (us : T) (s : State T O) : Prop where
  asleep : s.kernel.status us = .eventSleep → ∃ mask, s.inside = some mask ∧
    BitVec.ofInt 32 (s.kernel.retStatus us) = mask ∧ s.kernel.eventState us &&& mask = 0
  returns : ∀ mask fired, .returned mask fired ∈ s.log → mask ≠ 0 →
    fired ≠ 0 ∧ fired &&& mask = fired
  /-- a posted event that nothing has taken since is pending -/
  kept : ∀ bit, Since (Posts bit) (Takes bit) s.log → (s.kernel.eventState us).getLsbD bit = true
  /-- a returned event was posted, and taken by nothing in between -/
  once : ∀ bit before mask fired later, s.log = before ++ .returned mask fired :: later →
    fired.getLsbD bit = true → Since (Posts bit) (Takes bit) before

variable {us : T} {s : State T O}

structure Fires (noted mask fired : BitVec 32) : Prop where
  some : mask ≠ 0 → fired ≠ 0
  bound : fired &&& mask = fired
  noted : noted &&& fired = fired

def Returned (before : List Entry) : Entry → Prop
  | .returned mask fired => Fires (pending before) mask fired
  | _ => True

structure Inv (us : T) (s : State T O) (q : ListName O → List T) : Prop where
  placed : Placed s.kernel q
  nosem : s.kernel.status us ≠ .semaphoreSleep
  idle : s.inside = none → s.kernel.status us ≠ .eventSleep
  asleep : ∀ mask, s.inside = some mask → s.kernel.status us = .eventSleep →
    s.kernel.retStatus us = mask.toInt ∧ s.kernel.eventState us &&& mask = 0
  awake : ∀ mask, s.inside = some mask → s.kernel.status us ≠ .eventSleep →
    s.kernel.eventState us &&& mask ≠ 0
  noted : s.kernel.eventState us = pending s.log
  returned : Fits Returned s.log

omit [DecidableEq T] [DecidableEq O] in
theorem Inv.noneLost (h : Inv us s q) : NoneLost us s := by
  constructor
  case asleep =>
    intro hsleep
    cases hinside : s.inside with
    | none => exact absurd hsleep (h.idle hinside)
    | some mask =>
      obtain ⟨hret, hnone⟩ := h.asleep mask hinside hsleep
      refine ⟨mask, rfl, ?_, hnone⟩
      rw [hret, ofInt_toInt]
  case returns =>
    intro mask fired hmem hmask
    obtain ⟨before, later, hlog⟩ := append_of_mem hmem
    have hfires : Fires (pending before) mask fired := h.returned before _ later hlog
    exact ⟨hfires.some hmask, hfires.bound⟩
  case kept =>
    rintro bit ⟨before, e, later, hlog, ⟨mask, rfl, hmask⟩, hlater⟩
    rw [h.noted, hlog, pending, foldl_append, foldl_cons]
    refine pending_kept ?_ hlater
    simp [Entry.after, hmask]
  case once =>
    intro bit before mask fired later hlog hfired
    have hfires : Fires (pending before) mask fired := h.returned before _ later hlog
    refine pending_posted ?_
    have hbit := hfired
    rw [← hfires.noted, getLsbD_and, Bool.and_eq_true] at hbit
    exact hbit.1

theorem or_and_eq_zero {a b c : BitVec 32} : (a ||| b) &&& c = 0 ↔ a &&& c = 0 ∧ b &&& c = 0 := by
  have hdistrib : (a ||| b) &&& c = (a &&& c) ||| (b &&& c) := by
    ext i hi
    simp [Bool.and_or_distrib_right]
  rw [hdistrib]
  exact or_eq_zero_iff

theorem clear_fired (noted mask : BitVec 32) :
    noted &&& ~~~mask = noted &&& ~~~(noted &&& mask) := by
  ext i hi
  by_cases hnoted : noted[i] = true
  · simp [hnoted]
  · simp [hnoted]

theorem fires_masked {noted mask : BitVec 32} (h : mask ≠ 0 → noted &&& mask ≠ 0) :
    Fires noted mask (noted &&& mask) := by
  refine ⟨h, ?_, ?_⟩
  · rw [BitVec.and_assoc, BitVec.and_self]
  · rw [← BitVec.and_assoc, BitVec.and_self]

theorem post_inv (h : Inv us s q) (mask : BitVec 32) :
    ∃ s', step us s (.post mask) = some s' ∧ ∃ q, Inv us s' q := by
  obtain ⟨n, L, c, q', hpost, hplaced⟩ := threadsPostEvent_spec h.placed h.nosem mask
  refine ⟨_, map_eq_some_iff.mpr ⟨_, hpost, rfl⟩, q', ?_⟩
  -- a thread that sleeps now slept before
  have hslept {st : ThreadStatus} (hne : .active ≠ st)
      (hst : update s.kernel.status us (roused s.kernel us mask) us = st) :
      s.kernel.status us = st := by
    rw [update_self, roused] at hst
    split at hst
    · exact absurd hst hne
    · exact hst
  constructor
  case placed => exact hplaced.frame rfl
  case nosem => exact fun hsem => h.nosem (hslept (by decide) hsem)
  case idle => exact fun hinside hsleep => h.idle hinside (hslept (by decide) hsleep)
  case asleep =>
    intro m hinside hsleep
    have hold := hslept (by decide) hsleep
    change update s.kernel.status us _ us = _ at hsleep
    rw [update_self] at hsleep
    obtain ⟨hret, hnone⟩ := h.asleep m hinside hold
    refine ⟨hret, ?_⟩
    change update s.kernel.eventState us _ us &&& m = 0
    rw [update_self, or_and_eq_zero]
    refine ⟨hnone, ?_⟩
    by_contra hwakes
    rw [roused, hret, ofInt_toInt, and_comm m mask, if_pos ⟨hold, hwakes⟩] at hsleep
    cases hsleep
  case awake =>
    intro m hinside hawake
    change update s.kernel.status us _ us ≠ _ at hawake
    change update s.kernel.eventState us _ us &&& m ≠ 0
    rw [update_self] at hawake ⊢
    intro hzero
    obtain ⟨hnone, hmiss⟩ := or_and_eq_zero.mp hzero
    by_cases hold : s.kernel.status us = .eventSleep
    · obtain ⟨hret, -⟩ := h.asleep m hinside hold
      rw [roused, hret, ofInt_toInt, and_comm m mask, if_neg fun hp => hp.2 hmiss] at hawake
      exact hawake hold
    · exact h.awake m hinside hold hnone
  case noted =>
    change update s.kernel.eventState us _ us = pending (s.log ++ [_])
    rw [update_self, pending_snoc, h.noted]
    rfl
  case returned => exact h.returned.snoc trivial

omit [DecidableEq O] in
/-- `Threads_WaitEvents` ends: what has fired is returned and cleared. -/
theorem finish_inv (h : Inv us s q) {mask : BitVec 32} (hcur : s.kernel.cur = us)
    (hact : s.kernel.status us = .active)
    (hfired : mask ≠ 0 → s.kernel.eventState us &&& mask ≠ 0) (hplaced : Placed k q)
    (hstatus : k.status = s.kernel.status) (hevents : k.eventState = s.kernel.eventState)
    (hk : k.cur = s.kernel.cur) :
    Inv us (State.note { s with kernel := threadsClearEvent k mask, inside := none }
      (.returned mask (s.kernel.eventState us &&& mask))) q := by
  have hnoted := h.noted
  constructor
  case placed => exact hplaced.frame rfl
  case nosem =>
    change k.status us ≠ _
    rw [hstatus]
    exact h.nosem
  case idle =>
    intro _
    change k.status us ≠ _
    rw [hstatus, hact]
    exact ThreadStatus.noConfusion
  case asleep => exact fun _ hinside => (by cases hinside)
  case awake => exact fun _ hinside => (by cases hinside)
  case noted =>
    change update k.eventState k.cur _ us = pending (s.log ++ [_])
    rw [hk, hcur, update_self, pending_snoc, hevents, ← hnoted]
    exact clear_fired _ _
  case returned =>
    refine h.returned.snoc ?_
    rw [Returned, ← hnoted]
    exact fires_masked hfired

theorem wait_inv (h : Inv us s q) (hcur : s.kernel.cur = us) (hact : s.kernel.status us = .active)
    (hinside : s.inside = none) (mask : BitVec 32) : Inv us (s.wait mask) q := by
  subst hcur
  by_cases hzero : mask = 0
  · subst hzero
    refine { h with noted := ?_, returned := h.returned.snoc ?_ }
    · change _ = pending (s.log ++ [_])
      rw [pending_snoc, ← h.noted]
      exact and_allOnes.symm
    · exact ⟨id, and_self, and_zero⟩
  by_cases hnone : s.kernel.eventState s.kernel.cur &&& mask = 0
  · have hwait : s.wait mask = { s with
        kernel := threadsIntSleep s.kernel .eventSleep none mask.toInt .self
        inside := some mask } := by
      rw [State.wait, threadsWaitEvents, if_neg hzero, if_pos hnone]
    have hview : (threadsIntSleep s.kernel .eventSleep none mask.toInt .self).status s.kernel.cur =
          .eventSleep ∧
        (threadsIntSleep s.kernel .eventSleep none mask.toInt .self).retStatus s.kernel.cur =
          mask.toInt := by
      simp [threadsIntSleep, threadsRemActive, Kernel.setNext, Kernel.setStatus,
        Kernel.setRetStatus]
    have hplaced : Placed (threadsIntSleep s.kernel .eventSleep none mask.toInt .self) q := by
      apply threadsIntSleep_off none mask.toInt h.placed hact
      · exact ThreadStatus.noConfusion
      · exact fun _ hlist => (by cases hlist)
    rw [hwait]
    constructor
    case placed => exact hplaced
    case nosem =>
      rw [hview.1]
      exact ThreadStatus.noConfusion
    case idle => exact fun hno => (by cases hno)
    case asleep =>
      intro m hm _
      cases hm
      exact ⟨hview.2, hnone⟩
    case awake => exact fun m hm hawake => absurd hview.1 hawake
    case noted => exact h.noted
    case returned => exact h.returned
  · have hwait : s.wait mask = State.note
        { s with kernel := threadsClearEvent s.kernel mask, inside := none }
          (.returned mask (s.kernel.eventState s.kernel.cur &&& mask)) := by
      rw [State.wait, threadsWaitEvents, if_neg hzero, if_neg hnone, ← hinside]
      rfl
    rw [hwait]
    exact finish_inv h rfl hact (fun _ => hnone) h.placed rfl rfl rfl

omit [DecidableEq O] in
theorem clear_inv (h : Inv us s q) (hcur : s.kernel.cur = us) (hinside : s.inside = none)
    (mask : BitVec 32) :
    Inv us (State.note { s with kernel := threadsClearEvent s.kernel mask } (.clear mask)) q := by
  subst hcur
  refine { h with
    placed := h.placed.frame rfl, asleep := fun m hm => (by cases hinside.symm.trans hm),
    awake := fun m hm => (by cases hinside.symm.trans hm), noted := ?noted,
    returned := h.returned.snoc trivial }
  case noted =>
    change update s.kernel.eventState s.kernel.cur _ s.kernel.cur = pending (s.log ++ [_])
    rw [update_self, pending_snoc, ← h.noted]
    rfl

theorem step_inv (us : T) (s : State T O) (c : Call T) (h : ∃ q, Inv us s q)
    (hlegal : Legal us s c) : ∃ s', step us s c = some s' ∧ ∃ q, Inv us s' q := by
  obtain ⟨q, h⟩ := h
  cases c with
  | post mask => exact post_inv h mask
  | wait mask =>
    obtain ⟨hcur, hact, hinside⟩ := hlegal
    exact ⟨_, rfl, q, wait_inv h hcur hact hinside mask⟩
  | resume =>
    obtain ⟨hcur, hact, hcall⟩ := hlegal
    obtain ⟨mask, hmask⟩ := ne_none_iff_exists'.mp hcall
    refine ⟨s.resume mask, ?_, q, ?_⟩
    · rw [step, hmask]
      rfl
    · have hawake : s.kernel.status us ≠ .eventSleep := by simp [hact]
      have hfinish := finish_inv (k := (threadsIntSleepEnd s.kernel).2) h hcur hact
        (fun _ => h.awake mask hmask hawake) (h.placed.frame rfl) rfl rfl rfl
      rw [← hcur] at hfinish ⊢
      exact hfinish
  | clear mask => exact ⟨_, rfl, q, clear_inv h hlegal.1 hlegal.2.2 mask⟩
  | dispatch t =>
    obtain ⟨n, L, q', heq, hplaced, -⟩ := dispatch_spec h.placed hlegal
    exact ⟨_, map_eq_some_iff.mpr ⟨_, heq, rfl⟩, q', hplaced, h.nosem, h.idle, h.asleep,
      h.awake, h.noted, h.returned⟩

/-- The watched thread is not asleep for an event or a semaphore, and what is noted for it
counts as posted. -/
structure Start (us : T) (s : State T O) (q : ListName O → List T) : Prop where
  placed : Placed s.kernel q
  nosem : s.kernel.status us ≠ .semaphoreSleep
  awake : s.kernel.status us ≠ .eventSleep
  inside : s.inside = none
  log : s.log = [.post (s.kernel.eventState us)]

omit [DecidableEq T] [DecidableEq O] in
theorem Start.inv (h : Start us s q) : Inv us s q := by
  constructor
  case placed => exact h.placed
  case nosem => exact h.nosem
  case idle => exact fun _ => h.awake
  case asleep => exact fun _ hinside => (by cases h.inside.symm.trans hinside)
  case awake => exact fun _ hinside => (by cases h.inside.symm.trans hinside)
  case noted =>
    rw [h.log, pending]
    exact zero_or.symm
  case returned =>
    rw [h.log]
    exact (fits_nil : Fits Returned []).snoc trivial

instance (us : T) (s : State T O) : DecidablePred (Legal us s) := fun c => by
  cases c <;> dsimp only [Legal] <;> infer_instance

def sampleState : State (Fin 2) Unit := ⟨ready (fun _ => ()) 0 [1], none, [.post 0]⟩

theorem sampleState_start : Start 0 sampleState (readyLists [1]) := by
  constructor
  case placed => exact ready_placed _ (by decide) (by decide)
  all_goals decide

def sampleCalls : List (Call (Fin 2)) :=
  [.wait 9, .dispatch 1, .post 2, .post 12, .dispatch 0, .resume]

end ThreadEvents
