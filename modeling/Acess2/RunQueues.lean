import Acess2.MutexHandOver
import Acess2.ThreadsExit

/-! The run queues in every state of the kernel: what `Threads_Kill`, `Threads_WaitTID` and the
locks between them do to the lists, and the invariant over whole runs. -/
namespace RunQueues

open Function GuardedRuns IntrusiveLists List LocksModel Option ThreadsExit ThreadsModel
  ThreadsQueues
open MutexHandOver (mutexRelease_empty mutexRelease_next mutexAcquire_held)

variable {T O : Type}

section Calls

variable {k k' : Kernel T O} {q : ListName O → List T} {t : T}

def AwaitsChild (k : Kernel T O) (t : T) : Prop :=
  k.status t = .eventSleep ∧ BitVec.ofInt 32 (k.retStatus t) &&& eventDeadChild ≠ 0

instance (k : Kernel T O) (t : T) : Decidable (AwaitsChild k t) :=
  inferInstanceAs (Decidable (_ ∧ _))

def gone : ThreadStatus → Bool
  | .zombie | .dead | .buried => true
  | _ => false

variable [Fintype T]

theorem off_of_gone (h : Placed k q) (ht : gone (k.status t) = true) (l : ListName O) :
    t ∉ q l := by
  refine h.off_of_status fun l hst => ?_
  rw [← hst] at ht
  cases l <;> cases ht

variable [DecidableEq T]

theorem zombie_off (h : Placed k q) (hoff : ∀ l, t ∉ q l) {c : ℤ}
    (hcount : c = activeCount (update k.status t .zombie)) :
    Placed { k with numActive := c, status := update k.status t .zombie } q :=
  h.restate hoff (fun _ _ => rfl) (fun hact => (by cases hact)) hcount

variable [DecidableEq O]

section

variable (k) (t)

def roused : T → ThreadStatus :=
  if AwaitsChild k t then update k.status t .active else k.status

def told : Kernel T O :=
  { k with eventState := update k.eventState t (k.eventState t ||| eventDeadChild) }

theorem threadsPostEvent_deadChild : threadsPostEvent k t eventDeadChild =
      if AwaitsChild k t then threadsAddActive (told k t) t else some (told k t) := by
  rw [threadsPostEvent, if_neg (by decide)]
  dsimp only
  split
  case h_1 hsleep =>
    by_cases hwaits : BitVec.ofInt 32 (k.retStatus t) &&& eventDeadChild ≠ 0
    · rw [if_pos hwaits, if_pos ⟨hsleep, hwaits⟩]
      rfl
    · rw [if_neg hwaits, if_neg fun h => hwaits h.2]
      rfl
  case h_2 hsem =>
    rw [if_neg (by decide), if_neg]
    · rfl
    · rintro ⟨hsleep, -⟩
      cases hsem.symm.trans hsleep
  case h_3 hother _ =>
    rw [if_neg fun h => hother h.1]
    rfl

end

theorem postDeadChild_spec (h : Placed k q) (t : T) :
    ∃ n L c q', threadsPostEvent k t eventDeadChild = some { told k t with
        next := n, lists := L, numActive := c, status := roused k t } ∧
      Placed { k with next := n, lists := L, numActive := c, status := roused k t } q' ∧
      (∀ l, IsWait l → q' l = q l) ∧ ∀ u, (∀ l, u ∉ q l) → u ≠ t → n u = k.next u := by
  rw [threadsPostEvent_deadChild, roused]
  have htold : Placed (told k t) q := h.frame rfl
  by_cases hwaits : AwaitsChild k t
  · have hoff : ∀ l, t ∉ q l := fun l => h.off_of_status fun l => by
      rw [hwaits.1]
      cases l <;> simp [ListName.status]
    have hact : (told k t).status t ≠ .active := by
      change k.status t ≠ .active
      rw [hwaits.1]
      exact ThreadStatus.noConfusion
    obtain ⟨n, L, q', hwake, hplaced, hsame⟩ := threadsAddActive_spec htold hact hoff
    rw [if_pos hwaits, if_pos hwaits]
    refine ⟨n, L, _, q', hwake, hplaced.frame rfl, ?_, ?_⟩
    · exact fun l hl => (hsame l hl.ne_active).2
    · exact fun u hu hut => threadsAddActive_next htold.holds hwake hu hut
  · rw [if_neg hwaits, if_neg hwaits]
    exact ⟨k.next, k.lists, k.numActive, q, rfl, h, fun _ _ => rfl, fun _ _ _ => rfl⟩

/-- The statuses whose threads `Threads_Kill` takes off their lists, or that are on none -/
def killable : ThreadStatus → Bool
  | .active | .sleeping | .preinit | .eventSleep => true
  | _ => false

theorem leaveSleeping (hq : Placed k q) (hst : k.status t = .sleeping) :
    ∃ found n L q', threadsIntDelFromQueue k .sleepingThreads t =
        some (found, { k with next := n, lists := L }) ∧
      Placed { k with next := n, lists := L } q' ∧ (∀ l, t ∉ q' l) ∧
      (∀ l, IsWait l → q' l = q l) ∧ (∀ l u, u ∈ q' l → u ∈ q l) ∧
      ∀ u, (∀ l, u ∉ q l) → n u = k.next u := by
  by_cases hmem : t ∈ q .sleepingThreads
  · obtain ⟨n, e, hdel, hholds, -⟩ := threadsIntDelFromQueue_spec hq.holds hmem
    refine ⟨true, n, _, _, hdel, hq.shrink (fun p => by simp) hholds
      (fun u hu => mem_of_mem_erase hu) fun hw => hw.elim, fun l hl => ?_, fun l hl => ?_,
      fun l u hu => ?_, fun u hu => threadsIntDelFromQueue_next hq.holds hdel (hu _)⟩
    · exact ((hq.holds.mem_update_erase hmem).mp hl).2 rfl
    · refine update_of_ne ?_ _ _
      rintro rfl
      exact hl
    · exact ((hq.holds.mem_update_erase hmem).mp hu).1
  · refine ⟨false, k.next, k.lists, q, threadsIntDelFromQueue_absent hq.holds hmem, hq,
      fun l hl => ?_, fun _ _ => rfl, fun _ _ hu => hu, fun _ _ => rfl⟩
    have hkind := hq.kind hl
    rw [hst] at hkind
    cases l with
    | sleepingThreads => exact hmem hl
    | _ => cases hkind

theorem leaveLists_spec (h : Placed k q) (hst : killable (k.status t) = true) :
    ∃ n L c q', leaveLists k t = some { k with next := n, lists := L, numActive := c } ∧
      Placed { k with next := n, lists := L, numActive := c
                      status := update k.status t .zombie } q' ∧
      (∀ l, IsWait l → q' l = q l) ∧ ∀ u, (∀ l, u ∉ q l) → n u = k.next u := by
  have hsame (hact : k.status t ≠ .active) :
      k.numActive = activeCount (update k.status t .zombie) := by
    rw [activeCount_same hact (by simp)]
    exact h.count
  rw [leaveLists]
  cases hstatus : k.status t with
  | active =>
    have hcount : k.numActive - 1 = activeCount (update k.status t .zombie) := by
      have hleave : activeCount (update k.status t .zombie) + 1 = activeCount k.status :=
        activeCount_leave hstatus (by simp)
      rw [h.count, ← hleave]
      simp
    by_cases hcur : t = k.cur
    · refine ⟨k.next, k.lists, k.numActive - 1, q, ?_, ?_, fun _ _ => rfl, fun _ _ => rfl⟩
      · simp [hcur]
      · exact zombie_off h (fun l => hcur ▸ h.cur_off (hcur ▸ hstatus)) hcount
    have hmem := h.runs hstatus hcur
    obtain ⟨n, e, hdel, hholds, -⟩ := threadsIntDelFromQueue_spec h.holds hmem
    refine ⟨n, _, k.numActive - 1, _, ?_, h.retire hmem hholds (by simp) (fun hw => hw.elim) hcount,
      ?_, ?_⟩
    · simp [hcur, hdel]
    · exact fun l hl => update_of_ne (hl.ne_active _) _ _
    · exact fun u hu => threadsIntDelFromQueue_next h.holds hdel (hu _)
  | sleeping =>
    obtain ⟨found, n, L, q', hdel, hk', hoff', hwaits, -, hnext⟩ := leaveSleeping h hstatus
    refine ⟨n, L, k.numActive, q', ?_, zombie_off hk' hoff' (hsame (by simp [hstatus])), hwaits,
      hnext⟩
    simp [hdel]
  | preinit | eventSleep =>
    refine ⟨k.next, k.lists, k.numActive, q, rfl,
      zombie_off h (fun l => h.off_of_status fun l => ?_)
      (hsame (by simp [hstatus])), fun _ _ => rfl, fun _ _ => rfl⟩
    rw [hstatus]
    cases l <;> simp [ListName.status]
  | _ =>
    rw [hstatus] at hst
    cases hst

/-- The kernel when `Threads_Kill` has made its victim a zombie, and goes for the lock -/
def slain (k : Kernel T O) (t : T) (status : ℤ) (n : T → Option T) (L : ListName O → ThreadList T)
    (c : ℤ) : Kernel T O :=
  { disown k t with
    next := n
    lists := L
    numActive := c
    retStatus := update k.retStatus t status
    status := update k.status t .zombie }

variable {status : ℤ}

theorem threadsKill_cases {r : KillResult T} (h : Placed k q)
    (hst : killable (k.status t) = true) (heq : threadsKill k t status = some (r, k')) :
    ∃ n L c q₁ parent, Placed (slain k t status n L c) q₁ ∧ (∀ l, IsWait l → q₁ l = q l) ∧
      (∀ u, (∀ l, u ∉ q l) → n u = k.next u) ∧ (disown k t).parent t = some parent ∧
      ((k.mutexOwner (k.deadChildLock parent) ≠ none ∧ r = .slept parent ∧
          k' = mutexAcquire (slain k t status n L c) (k.deadChildLock parent)) ∨
        (k.mutexOwner (k.deadChildLock parent) = none ∧ r = .done parent ∧
          threadsKillEnd { slain k t status n L c with
            mutexOwner := update k.mutexOwner (k.deadChildLock parent) (some k.cur) } t =
              some k')) := by
  have hdisown : Placed (disown k t) q := h.frame rfl
  obtain ⟨n, L, c, q₁, hleave, hplaced, hwaits, hnext⟩ := leaveLists_spec hdisown hst
  have hzombie : (disown k t).status t ≠ .zombie := by
    intro hz
    change k.status t = _ at hz
    rw [hz] at hst
    cases hst
  rw [threadsKill] at heq
  rw [if_neg hzombie, hleave] at heq
  obtain ⟨k₁, hk₁, heq⟩ := bind_eq_some_iff.mp heq
  cases hk₁
  obtain ⟨parent, hparent, heq⟩ := bind_eq_some_iff.mp heq
  refine ⟨n, L, c, q₁, parent, hplaced.frame rfl, hwaits, hnext, hparent, ?_⟩
  split at heq
  · rename_i hheld
    cases heq
    exact .inl ⟨hheld, rfl, rfl⟩
  rename_i hfree
  obtain ⟨k₂, hk₂, heq⟩ := bind_eq_some_iff.mp heq
  cases heq
  refine .inr ⟨not_not.mp hfree, rfl, ?_⟩
  rw [mutexAcquire, if_neg hfree] at hk₂
  exact hk₂

theorem threadsKill_zombie (hst : k.status t = .zombie) :
    threadsKill k t status = some (.undead, disown k t) :=
  if_pos hst

def laidOut (k : Kernel T O) (t parent : T) : Kernel T O :=
  { k with
    next := update k.next t (k.lastDeadChild parent)
    lastDeadChild := update k.lastDeadChild parent (some t) }

theorem threadsKillEnd_spec (h : Placed k q) (hoff : ∀ l, t ∉ q l)
    (heq : threadsKillEnd k t = some k') :
    ∃ parent n L c q', k.parent t = some parent ∧ k' = { told (laidOut k t parent) parent with
        next := n, lists := L, numActive := c, status := roused k parent } ∧
      Placed k' q' ∧ (∀ l, IsWait l → q' l = q l) ∧
      ∀ u, (∀ l, u ∉ q l) → u ≠ parent → n u = (laidOut k t parent).next u := by
  obtain ⟨parent, hparent, heq⟩ := bind_eq_some_iff.mp heq
  have hplaced : Placed (laidOut k t parent) q := by
    refine ⟨h.holds.frame fun l u hu => ?_, h.kind, h.runs, h.queued, h.waitTail, h.count⟩
    exact update_of_ne (fun hut : u = t => hoff l (hut ▸ hu)) _ _
  obtain ⟨n, L, c, q', hpost, hplaced', hwaits, hnext⟩ := postDeadChild_spec hplaced parent
  have hk' : k' = { told (laidOut k t parent) parent with
      next := n, lists := L, numActive := c, status := roused k parent } :=
    some.inj (heq.symm.trans hpost)
  refine ⟨parent, n, L, c, q', hparent, hk', ?_, hwaits, hnext⟩
  rw [hk']
  exact hplaced'.frame rfl

/-- The parent in front of `Mutex_Release`: it has taken the dead child off its list. -/
def reaped (k : Kernel T O) (dead : T) (events : T → BitVec 32) : Kernel T O :=
  { k with
    lastDeadChild := update k.lastDeadChild k.cur (k.next dead)
    eventState := events }

theorem reap_cases {r : T × ℤ} (hact : k.status k.cur = .active) (heq : reap k = some (r, k')) :
    ∃ dead events k₁, k.lastDeadChild k.cur = some dead ∧
      mutexRelease (reaped k dead events) (k.deadChildLock k.cur) = some k₁ ∧
      k₁.status dead = .zombie ∧ r = (dead, k₁.retStatus dead) ∧
      k' = { k₁ with status := update k₁.status dead .buried } ∧
      (∀ u, u ≠ k.cur → events u = k.eventState u) ∧
      (k.next dead = none → events k.cur = k.eventState k.cur &&& ~~~eventDeadChild) := by
  obtain ⟨dead, hdead, heq⟩ := bind_eq_some_iff.mp heq
  have hawake : ¬ AwaitsChild { k with
      lastDeadChild := update k.lastDeadChild k.cur (k.next dead) } k.cur := by
    rintro ⟨hsleep, -⟩
    cases hact.symm.trans hsleep
  obtain ⟨events, hevents, hcleared, hrest⟩ : ∃ events : T → BitVec 32,
      (∀ u, u ≠ k.cur → events u = k.eventState u) ∧
      (k.next dead = none → events k.cur = k.eventState k.cur &&& ~~~eventDeadChild) ∧
      (mutexRelease (reaped k dead events) (k.deadChildLock k.cur)).bind (fun k =>
        if k.status dead ≠ .zombie then none
        else some ((dead, k.retStatus dead), (k.setStatus dead .dead).setStatus dead .buried)) =
          some (r, k') := by
    by_cases hnext : k.next dead = none
    · rw [if_neg (not_not_intro hnext)] at heq
      exact ⟨update k.eventState k.cur (k.eventState k.cur &&& ~~~eventDeadChild),
        fun u hu => update_of_ne hu _ _, fun _ => update_self _ _ _, heq⟩
    · rw [if_pos hnext, threadsPostEvent_deadChild, if_neg hawake] at heq
      exact ⟨update k.eventState k.cur (k.eventState k.cur ||| eventDeadChild),
        fun u hu => update_of_ne hu _ _, fun h => absurd h hnext, heq⟩
  obtain ⟨k₁, hrelease, hrest⟩ := bind_eq_some_iff.mp hrest
  obtain ⟨hzombie, ⟨⟩⟩ := ite_none_left_eq_some.mp hrest
  refine ⟨dead, events, k₁, hdead, hrelease, not_not.mp hzombie, rfl, ?_, hevents, hcleared⟩
  simp only [Kernel.setStatus, update_idem]

end Calls

variable {s s' : System T O} {k k' : Kernel T O} {q : ListName O → List T} {t : T} {l : ListName O}
  {f : T → ThreadStatus} {st : ThreadStatus} {list : SleepList O} {status : ℤ} [DecidableEq T]

theorem status_kept (ht : gone (f t) = false) (st : ThreadStatus) (c : T)
    (hc : gone (f c) = true) : update f t st c = f c := by
  refine update_of_ne ?_ _ _
  rintro rfl
  cases ht.symm.trans hc

theorem gone_update (ht : gone (f t) = false) (v : T)
    (hv : gone (f v) = true) : gone (update f t st v) = true := by
  rw [status_kept ht st v hv]
  exact hv

theorem gone_exit {b : Bool} (hst : gone st = b) (t v : T)
    (hv : gone (f v) = b) : gone (update f t st v) = b := by
  by_cases hvt : v = t
  · rw [hvt, update_self]
    exact hst
  · rw [update_of_ne hvt]
    exact hv

theorem gone_roused (k : Kernel T O) (t v : T) (hv : gone (k.status v) = true) :
    gone (roused k t v) = true := by
  rw [roused]
  split
  · rename_i hwaits
    exact gone_update (congrArg gone hwaits.1) v hv
  · exact hv

theorem inside_update {inside : T → Option (Call T)} {u₀ u : T} {call : Option (Call T)}
    {call' : Call T} (hu : update inside u₀ call u = some call') :
    (u = u₀ ∧ call = some call') ∨ inside u = some call' := by
  by_cases huu : u = u₀
  · subst huu
    rw [update_self] at hu
    exact .inl ⟨rfl, hu⟩
  · rw [update_of_ne huu] at hu
    exact .inr hu

variable [Fintype T]

def On (k : Kernel T O) (l : ListName O) (t : T) : Prop :=
  seek k.next t (walkFuel T) none (k.lists l).head ≠ some none

def sleepStatus : ThreadStatus → Bool
  | .sleeping | .mutexSleep | .rwlockSleep | .semaphoreSleep | .queueSleep | .eventSleep
  | .waiting => true
  | _ => false

/-- A thread is made active off its wait queue and before it has exited; it sleeps on the queue of
its status; parents' locks are free when children exit by themselves. -/
def Orderly (s : System T O) : Op T O → Prop
  | .addActive t => gone (s.kernel.status t) = false ∧ ∀ l, ¬ On s.kernel l t
  | .takeFirst l => IsWait l
  | .intSleep status _ _ list => sleepStatus status = true ∧
      ∀ l, list = .queue l → IsWait l ∧ status = l.status
  | .wake t => s.kernel.status t = .sleeping
  | .kill t _ => (killable (s.kernel.status t) = true ∨ s.kernel.status t = .zombie) ∧
      (t = s.kernel.cur → ∀ parent, (disown s.kernel t).parent t = some parent →
        s.kernel.mutexOwner (s.kernel.deadChildLock parent) = none)
  | _ => True

theorem on_iff (h : Placed k q) : On k l t ↔ t ∈ q l := by
  constructor
  · intro hon
    by_contra hmem
    exact hon (seek_absent (h.holds.linked l) hmem (walk_short (h.holds.nodup l)))
  · intro hmem hnone
    obtain ⟨xs, ys, hq, htxs⟩ := eq_append_cons_of_mem hmem
    have hl := h.holds.linked l
    have hn := h.holds.nodup l
    rw [hq] at hl hn
    have hshort : xs.length < walkFuel T := walk_short ((sublist_append_left xs _).nodup hn)
    rw [seek_found hl htxs hshort] at hnone
    cases hnone

structure Inv (s : System T O) : Prop where
  placed : ∃ q, Placed s.kernel q
  victims : ∀ u v, s.inside u = some (.kill v) → gone (s.kernel.status v) = true

omit [DecidableEq T] in
/-- A step that only changes the kernel keeps the victims if it leaves exited threads alone. -/
theorem Inv.kernel (h : Inv s) (hplaced : ∃ q, Placed k q)
    (hgone : ∀ v, gone (s.kernel.status v) = true → gone (k.status v) = true) :
    Inv { s with kernel := k } :=
  ⟨hplaced, fun u v hu => hgone v (h.victims u v hu)⟩

/-- A step of the current thread in which it enters or leaves a call other than a kill -/
theorem Inv.inside (h : Inv s) {u : T} {call : Option (Call T)}
    (hcall : ∀ v, call ≠ some (.kill v)) : Inv (s.goInside u call) := by
  refine ⟨h.placed, fun u' v hu => ?_⟩
  rcases inside_update hu with ⟨-, heq⟩ | hbefore
  · exact absurd heq (hcall v)
  · exact h.victims u' v hbefore

theorem clearEvent_inv (h : Inv s) (mask : BitVec 32) :
    Inv { s with kernel := threadsClearEvent s.kernel mask } := by
  obtain ⟨q, hq⟩ := h.placed
  exact h.kernel ⟨q, hq.frame rfl⟩ fun v hv => hv

theorem buried_placed (hq : Placed k q) (hzombie : k.status t = .zombie) :
    Placed { k with status := update k.status t .buried } q := by
  have hgone : gone (k.status t) = true := congrArg gone hzombie
  have hcount : k.numActive = activeCount (update k.status t .buried) := by
    rw [activeCount_same (by rw [hzombie]; simp) (by simp)]
    exact hq.count
  exact hq.restate (off_of_gone hq hgone) (fun _ _ => rfl)
    (fun hactive => (by cases hactive)) hcount

/-- The run queues are exact: `q` is what the walks along the lists meet. -/
structure Exact (k : Kernel T O) (q : ListName O → List T) : Prop where
  lists : Holds k.next k.lists q
  active : ∀ t, k.status t = .active → t ≠ k.cur → (q (.activeThreads (k.priority t))).count t = 1 ∧
      ∀ l, t ∈ q l → l = .activeThreads (k.priority t)
  others : ∀ p t, t ∈ q (.activeThreads p) → k.status t = .active
  count : k.numActive = activeCount k.status

theorem exact_of_placed (h : Placed k q) : Exact k q where
  lists := h.holds
  active t hact hcur := by
    have hmem := h.runs hact hcur
    exact ⟨count_eq_one_of_mem (h.holds.nodup _) hmem, fun l hl => h.holds.apart hl hmem⟩
  others p t hmem := h.kind hmem
  count := h.count

variable [DecidableEq O]

section Decidable

instance (l : ListName O) : Decidable (IsWait l) := by
  cases l
  all_goals first
    | exact isTrue trivial
    | exact isFalse id

instance decidableForallList [Fintype O] (P : ListName O → Prop) [DecidablePred P] :
    Decidable (∀ l, P l) :=
  decidable_of_iff ((∀ p, P (.activeThreads p)) ∧ P .sleepingThreads ∧
      (∀ o, P (.mutexWaiting o) ∧ P (.readerWaiting o) ∧ P (.writerWaiting o) ∧
        P (.semWaiting o) ∧ P (.semSignaling o) ∧ P (.queueSleeper o))) (by
    constructor
    · rintro ⟨hactive, hsleeping, hobjects⟩ l
      cases l <;> simp only [hactive, hsleeping, hobjects]
    · exact fun h => ⟨fun p => h _, h _, fun o => ⟨h _, h _, h _, h _, h _, h _⟩⟩)

instance (k : Kernel T O) (l : ListName O) (t : T) : Decidable (On k l t) :=
  inferInstanceAs (Decidable (_ ≠ _))

instance (list : SleepList O) (P : ListName O → Prop) [DecidablePred P] :
    Decidable (∀ l, list = .queue l → P l) :=
  match list with
  | .queue l => decidable_of_iff (P l) ⟨fun h l' hl => SleepList.queue.inj hl ▸ h, fun h => h l rfl⟩
  | .self => isTrue fun l hl => (by cases hl)
  | .nowhere => isTrue fun l hl => (by cases hl)

instance [Fintype O] (s : System T O) : DecidablePred (Orderly s) := fun op => by
  cases op
  all_goals
    unfold Orderly
    infer_instance

end Decidable

theorem addActive_inv (h : Inv s) (hgone : gone (s.kernel.status t) = false)
    (hoff : ∀ l, ¬ On s.kernel l t) (heq : threadsAddActive s.kernel t = some k) :
    Inv { s with kernel := k } := by
  obtain ⟨q, hq⟩ := h.placed
  have hact : s.kernel.status t ≠ .active := fun hact => by simp [threadsAddActive, hact] at heq
  obtain ⟨n, L, q', hwake, hplaced, -⟩ :=
    threadsAddActive_spec hq hact fun l hmem => hoff l ((on_iff hq).mpr hmem)
  cases heq.symm.trans hwake
  exact h.kernel ⟨q', hplaced⟩ (gone_update hgone)

omit [DecidableEq T] in
theorem takeFirst_inv (h : Inv s) (hl : IsWait l)
    (hhead : (s.kernel.lists l).head = some t) :
    Inv { s with kernel := popWaiter s.kernel l t } := by
  obtain ⟨q, hq⟩ := h.placed
  obtain ⟨ys, hys⟩ := hq.holds.head_cons hhead
  exact h.kernel ⟨_, (hq.pop_wait hl hys rfl (hq.tail_popped hl hys)).1⟩ fun v hv => hv

omit [Fintype T] in
theorem threadsIntSleep_status (k : Kernel T O) (st : ThreadStatus) (ptr : Option O) (num : ℤ)
    (list : SleepList O) :
    (threadsIntSleep k st ptr num list).status = update k.status k.cur st := by
  unfold threadsIntSleep
  cases list with
  | queue l =>
    dsimp only
    split
    all_goals rfl
  | self => rfl
  | nowhere => rfl

theorem threadsIntSleep_placed (hq : Placed k q) (hact : k.status k.cur = .active)
    {status : ThreadStatus} (ptr : Option O) (num : ℤ)
    (hst : sleepStatus status = true)
    (hlist : ∀ l, list = .queue l → IsWait l ∧ status = l.status) :
    ∃ q', Placed (threadsIntSleep k status ptr num list) q' ∧
      ∀ l, list ≠ .queue l → q' l = q l := by
  by_cases hqueue : ∃ l, list = .queue l
  · obtain ⟨l, rfl⟩ := hqueue
    obtain ⟨hl, rfl⟩ := hlist l rfl
    obtain ⟨n, e, heq, hplaced⟩ := threadsIntSleep_queue ptr num hq hl hact
    refine ⟨update q l (q l ++ [k.cur]), ?_, fun l' hl' => update_of_ne ?_ _ _⟩
    · rw [heq]
      exact hplaced.frame rfl
    · rintro rfl
      exact hl' rfl
  · refine ⟨q, threadsIntSleep_off ptr num hq hact ?_ fun l hl => hqueue ⟨l, hl⟩, fun _ _ => rfl⟩
    rintro rfl
    cases hst

theorem intSleep_inv (h : Inv s) (hact : s.kernel.status s.kernel.cur = .active)
    {status : ThreadStatus} (ptr : Option O) (num : ℤ)
    (hst : sleepStatus status = true)
    (hlist : ∀ l, list = .queue l → IsWait l ∧ status = l.status) :
    Inv { s with kernel := threadsIntSleep s.kernel status ptr num list } := by
  obtain ⟨q, hq⟩ := h.placed
  obtain ⟨q', hplaced, -⟩ := threadsIntSleep_placed hq hact ptr num hst hlist
  refine h.kernel ⟨q', hplaced⟩ fun v hv => ?_
  rw [threadsIntSleep_status]
  exact gone_update (congrArg gone hact) v hv

theorem sleep_inv (h : Inv s) (hact : s.kernel.status s.kernel.cur = .active)
    (heq : threadsSleep s.kernel = some k) : Inv { s with kernel := k } := by
  obtain ⟨q, hq⟩ := h.placed
  cases hmsg : s.kernel.messages s.kernel.cur with
  | true =>
    rw [threadsSleep, if_pos hmsg] at heq
    cases heq
    exact h
  | false =>
    obtain ⟨n, e, hsleep, hplaced⟩ := threadsSleep_spec hq hact hmsg
    cases heq.symm.trans hsleep
    exact h.kernel ⟨_, hplaced⟩ (gone_update (congrArg gone hact))

theorem threadsWake_sleeping (hq : Placed k q) (hst : k.status t = .sleeping) :
    ∃ n L c q', let k' := { k with
        next := n, lists := L, numActive := c, status := update k.status t .active }
      threadsWake k t = some (.ok, k') ∧ Placed k' q' ∧
      (∀ l, IsWait l → q' l = q l) ∧ ∀ u, (∀ l, u ∉ q l) → u ≠ t → n u = k.next u := by
  obtain ⟨found, n₁, L₁, q₁, hdel, hk₁, hoff, hwaits, hless, hnext⟩ := leaveSleeping hq hst
  have hact : ({ k with next := n₁, lists := L₁ } : Kernel T O).status t ≠ .active := by simp [hst]
  obtain ⟨n, L, q', hwake, hplaced, hsame⟩ := threadsAddActive_spec hk₁ hact hoff
  refine ⟨n, L, _, q', ?_, hplaced, fun l hl => ?_, fun u hu hut => ?_⟩
  · simp [threadsWake, hst, hdel, hwake]
  · rw [(hsame l hl.ne_active).2, hwaits l hl]
  · exact (threadsAddActive_next hk₁.holds hwake (fun l hl => hu l (hless l u hl)) hut).trans
      (hnext u hu)

theorem wake_inv (h : Inv s) (hst : s.kernel.status t = .sleeping) {r : WakeResult}
    (heq : threadsWake s.kernel t = some (r, k)) : Inv { s with kernel := k } := by
  obtain ⟨q, hq⟩ := h.placed
  obtain ⟨n, L, c, q', hwake, hplaced, -⟩ := threadsWake_sleeping hq hst
  cases heq.symm.trans hwake
  exact h.kernel ⟨q', hplaced⟩ (gone_update (congrArg gone hst))

theorem killEnd_inv (hq : Placed k q) (hgone : gone (k.status t) = true)
    (heq : threadsKillEnd k t = some k') :
    (∃ q', Placed k' q') ∧ ∀ v, gone (k.status v) = true → gone (k'.status v) = true := by
  obtain ⟨parent, n, L, c, q', -, rfl, hplaced, -⟩ :=
    threadsKillEnd_spec hq (off_of_gone hq hgone) heq
  exact ⟨⟨q', hplaced⟩, gone_roused k parent⟩

def exitedTo (s : System T O) (t parent : T) (status : ℤ) : History T :=
  { s.history with exits := update s.history.exits t (some (parent, status)) }

theorem kill_cases (hq : Placed s.kernel q)
    (hst : killable (s.kernel.status t) = true) (heq : s.kill t status = some s') :
    ∃ n L c q₁ parent, Placed (slain s.kernel t status n L c) q₁ ∧
      (∀ l, IsWait l → q₁ l = q l) ∧ (∀ u, (∀ l, u ∉ q l) → n u = s.kernel.next u) ∧
      (disown s.kernel t).parent t = some parent ∧
      ((s.kernel.mutexOwner (s.kernel.deadChildLock parent) ≠ none ∧
          s' = ⟨mutexAcquire (slain s.kernel t status n L c) (s.kernel.deadChildLock parent),
            update s.inside s.kernel.cur (some (.kill t)), exitedTo s t parent status⟩) ∨
        (s.kernel.mutexOwner (s.kernel.deadChildLock parent) = none ∧ ∃ k',
          threadsKillEnd { slain s.kernel t status n L c with
            mutexOwner := update s.kernel.mutexOwner
              (s.kernel.deadChildLock parent) (some s.kernel.cur) } t = some k' ∧
          s' = ⟨k', if t = s.kernel.cur then update s.inside t (some .exited)
            else s.inside, exitedTo s t parent status⟩)) := by
  obtain ⟨⟨r, k⟩, hkill, rfl⟩ := map_eq_some_iff.mp heq
  obtain ⟨n, L, c, q₁, parent, hslain, hwaits, hnext, hparent, hrest⟩ :=
    threadsKill_cases hq hst hkill
  refine ⟨n, L, c, q₁, parent, hslain, hwaits, hnext, hparent, ?_⟩
  rcases hrest with ⟨hheld, rfl, rfl⟩ | ⟨hfree, rfl, hend⟩
  · exact .inl ⟨hheld, rfl⟩
  · refine .inr ⟨hfree, k, hend, ?_⟩
    dsimp only
    split
    · rfl
    · rfl

theorem kill_zombie (hst : s.kernel.status t = .zombie)
    (heq : s.kill t status = some s') : s' = { s with kernel := disown s.kernel t } := by
  rw [System.kill, threadsKill_zombie hst] at heq
  exact (some.inj heq).symm

theorem kill_inv (h : Inv s) (hact : s.kernel.status s.kernel.cur = .active)
    (hst : killable (s.kernel.status t) = true ∨ s.kernel.status t = .zombie)
    (hself : t = s.kernel.cur → ∀ parent, (disown s.kernel t).parent t = some parent →
      s.kernel.mutexOwner (s.kernel.deadChildLock parent) = none)
    (heq : s.kill t status = some s') : Inv s' := by
  obtain ⟨q, hq⟩ := h.placed
  rcases hst with hst | hzombie
  · obtain ⟨n, L, c, q₁, parent, hslain, -, -, hparent, hrest⟩ := kill_cases hq hst heq
    have hgone (v : T) (hv : gone (s.kernel.status v) = true) :
        gone ((slain s.kernel t status n L c).status v) = true := gone_exit rfl t v hv
    have hvictim : gone ((slain s.kernel t status n L c).status t) = true := by
      change gone (update s.kernel.status t .zombie t) = true
      rw [update_self]
      rfl
    rcases hrest with ⟨hheld, rfl⟩ | ⟨-, k', hend, rfl⟩
    · -- the lock is held, so the victim is another thread, and the caller sleeps
      have hcur : s.kernel.cur ≠ t := fun hcur => hheld (hself hcur.symm parent hparent)
      have hawake : (slain s.kernel t status n L c).status
          (slain s.kernel t status n L c).cur = .active :=
        (update_of_ne hcur _ _).trans hact
      obtain ⟨n', e, hsleep, hplaced, -⟩ := mutexAcquire_held hslain hawake hheld
      refine ⟨⟨_, hplaced⟩, fun u v hu => ?_⟩
      have hkeep : gone ((slain s.kernel t status n L c).status v) = true := by
        rcases inside_update hu with ⟨-, hcall⟩ | hbefore
        · obtain rfl := Call.kill.inj (some.inj hcall)
          exact hvictim
        · exact hgone v (h.victims u v hbefore)
      rw [hsleep]
      exact gone_update (congrArg gone hawake) v hkeep
    · have hlocked : Placed { slain s.kernel t status n L c with
          mutexOwner := update s.kernel.mutexOwner
            (s.kernel.deadChildLock parent) (some s.kernel.cur) } q₁ :=
        hslain.frame rfl
      obtain ⟨hplaced, hkeep⟩ := killEnd_inv hlocked hvictim hend
      refine ⟨hplaced, fun u v hu => hkeep v (hgone v ?_)⟩
      split at hu
      · rcases inside_update hu with ⟨-, hcall⟩ | hbefore
        · cases hcall
        · exact h.victims u v hbefore
      · exact h.victims u v hu
  · rw [kill_zombie hzombie heq]
    exact h.kernel ⟨q, hq.frame rfl⟩ fun v hv => hv

theorem waitTID_inv (h : Inv s) (hact : s.kernel.status s.kernel.cur = .active) :
    Inv s.waitTID := by
  rw [System.waitTID, threadsWaitEvents, if_neg (by decide)]
  split
  · rename_i k heq
    split at heq
    · cases heq
      refine Inv.inside (s := { s with kernel := _ }) ?_ (by simp)
      exact intSleep_inv h hact none _ rfl fun l hl => (by cases hl)
    · cases heq
  rename_i fired k heq
  split at heq
  · cases heq
  · cases heq
    refine Inv.inside (s := { s with kernel := _ }) ?_ (by simp)
    exact clearEvent_inv h eventDeadChild

theorem mutexRelease_spec (hq : Placed k q) {m : O} (heq : mutexRelease k m = some k') :
    ∃ n L c status owner rest q', k' = { k with
        next := n, lists := L, numActive := c, status := status
        mutexOwner := update k.mutexOwner m owner } ∧ Placed k' q' ∧
      q (.mutexWaiting m) = owner.toList ++ rest ∧ (owner = none → rest = []) ∧
      (∀ l, IsWait l → q' l = update q (.mutexWaiting m) rest l) ∧
      (∀ v, gone (k.status v) = true → status v = k.status v) ∧
      (∀ v, gone (k.status v) = false → gone (status v) = false) ∧
      ∀ v, (∀ l, v ∉ q l) → n v = k.next v := by
  cases hwaiters : q (.mutexWaiting m) with
  | nil =>
    rw [mutexRelease_empty hq hwaiters] at heq
    cases heq
    refine ⟨k.next, k.lists, k.numActive, k.status, none, [], q, rfl,
      hq.frame rfl, rfl, fun _ => rfl, fun l _ => ?_, fun _ _ => rfl,
      fun _ hv => hv, fun _ _ => rfl⟩
    rw [← hwaiters, update_eq_self]
  | cons u us =>
    have hu : gone (k.status u) = false :=
      congrArg gone (hq.kind (l := .mutexWaiting m) (t := u) (by simp [hwaiters]))
    obtain ⟨n, L, c, q', hrelease, hplaced, hwaits, hnext⟩ := mutexRelease_next hq hwaiters
    cases heq.symm.trans hrelease
    exact ⟨n, L, c, _, some u, us, q', rfl, hplaced.frame rfl, rfl,
      fun hnone => (by cases hnone), hwaits, status_kept hu .active, gone_exit (b := false) rfl u,
        hnext⟩

theorem reap_inv (h : Inv s) (hact : s.kernel.status s.kernel.cur = .active) {r : T × ℤ}
    (heq : reap s.kernel = some (r, k)) : Inv { s with kernel := k } := by
  obtain ⟨q, hq⟩ := h.placed
  obtain ⟨dead, events, k₁, -, hrelease, hzombie, -, rfl, -⟩ := reap_cases hact heq
  have hreaped : Placed (reaped s.kernel dead events) q := hq.frame rfl
  obtain ⟨n, L, c, st, owner, rest, q₁, hfields, hk₁, -, -, -, hkeep, -⟩ :=
    mutexRelease_spec hreaped hrelease
  refine h.kernel ⟨q₁, buried_placed hk₁ hzombie⟩ fun v hv => gone_exit rfl dead v ?_
  rw [hfields]
  exact (congrArg gone (hkeep v hv)).trans hv

theorem resume_inv (h : Inv s) (hact : s.kernel.status s.kernel.cur = .active) {call : Call T}
    (hcall : s.inside s.kernel.cur = some call) (heq : s.resume call = some s') : Inv s' := by
  obtain ⟨q, hq⟩ := h.placed
  cases call with
  | kill victim =>
    obtain ⟨k, hend, rfl⟩ := map_eq_some_iff.mp heq
    have hplaced : Placed (threadsIntSleepEnd s.kernel).2 q := hq.frame rfl
    obtain ⟨hplaced', hkeep⟩ := killEnd_inv hplaced (h.victims _ _ hcall) hend
    refine Inv.inside (s := { s with kernel := k }) (h.kernel hplaced' hkeep) fun v => ?_
    split
    · simp
    · simp
  | waitTID =>
    cases heq
    refine Inv.inside (s := { s with kernel := _ }) ?_ (by simp)
    exact h.kernel ⟨q, hq.frame rfl⟩ fun v hv => hv
  | reaping fired =>
    rw [System.resume] at heq
    split at heq
    · obtain ⟨⟨r, k⟩, hreap, rfl⟩ := map_eq_some_iff.mp heq
      have hkernel : Inv (System.goInside { s with kernel := k } s.kernel.cur none) :=
        (reap_inv h hact hreap).inside (by simp)
      exact ⟨hkernel.placed, hkernel.victims⟩
    · cases heq
      exact h.inside (by simp)
  | exited => cases heq

theorem step_inv (h : Inv s) {op : Op T O} (horderly : Orderly s op) (heq : step s op = some s') :
    Inv s' := by
  cases op with
  | addActive t =>
    obtain ⟨k, hk, rfl⟩ := map_eq_some_iff.mp heq
    exact addActive_inv h horderly.1 horderly.2 hk
  | takeFirst l =>
    obtain ⟨t, ht, rfl⟩ := map_eq_some_iff.mp heq
    exact takeFirst_inv h horderly ht
  | intSleep status ptr num list =>
    obtain ⟨hfree, ⟨⟩⟩ := ite_none_right_eq_some.mp heq
    exact intSleep_inv h hfree.1 ptr num horderly.1 horderly.2
  | sleep =>
    obtain ⟨hfree, heq⟩ := ite_none_right_eq_some.mp heq
    obtain ⟨k, hk, rfl⟩ := map_eq_some_iff.mp heq
    exact sleep_inv h hfree.1 hk
  | wake t =>
    obtain ⟨⟨r, k⟩, hk, rfl⟩ := map_eq_some_iff.mp heq
    exact wake_inv h horderly hk
  | kill t status =>
    obtain ⟨hfree, heq⟩ := ite_none_right_eq_some.mp heq
    exact kill_inv h hfree.1 horderly.1 horderly.2 heq
  | waitTID =>
    obtain ⟨hfree, ⟨⟩⟩ := ite_none_right_eq_some.mp heq
    exact waitTID_inv h hfree.1
  | resume =>
    obtain ⟨hact, heq⟩ := ite_none_right_eq_some.mp heq
    obtain ⟨call, hcall, heq⟩ := bind_eq_some_iff.mp heq
    exact resume_inv h hact hcall heq
  | reschedule noTaskSwitch =>
    obtain ⟨q, hq⟩ := h.placed
    obtain ⟨k, hk, rfl⟩ := map_eq_some_iff.mp heq
    obtain ⟨n, L, c, q', hswitch, hplaced, -⟩ := procReschedule_spec hq noTaskSwitch
    cases hk.symm.trans hswitch
    exact h.kernel ⟨q', hplaced⟩ fun v hv => hv

/-- In every state of a run that makes its calls in order the run queues are exact. -/
theorem run_queues_exact {ops : List (Op T O)} (hplaced : ∃ q, Placed s.kernel q)
    (hinside : ∀ u, s.inside u = none) (horderly : Along step Orderly s ops)
    (hrun : run step s ops = some s') : ∃ q, Exact s'.kernel q := by
  have hinv : Inv s := by
    refine ⟨hplaced, fun u v hu => ?_⟩
    rw [hinside u] at hu
    cases hu
  obtain ⟨q, hq⟩ := (run_invariant (fun s op t h => step_inv h) hinv horderly hrun).placed
  exact ⟨q, exact_of_placed hq⟩

def sampleSystem : System (Fin 3) (Fin 3) :=
  ⟨ready id 0 [1], fun _ => none, ⟨fun _ => none, []⟩⟩

def sampleRun : List (Op (Fin 3) (Fin 3)) :=
  [.sleep, .reschedule false, .addActive 2, .wake 0, .kill 1 5, .reschedule false,
   .reschedule false,
    .waitTID, .resume, .kill 2 7]

/-- Thread 1 is made active while it is still on `gSleepingThreads`. -/
def hastyRun : List (Op (Fin 3) (Fin 3)) :=
  [.reschedule false, .sleep, .reschedule false, .addActive 1]

theorem sample_queues_exact : ∃ s, run step sampleSystem sampleRun = some s ∧
    ∃ q, Exact s.kernel q := by
  have hreached : (run step sampleSystem sampleRun).isSome = true := by decide +kernel
  obtain ⟨s, hs⟩ := isSome_iff_exists.mp hreached
  have hplaced : Placed sampleSystem.kernel (readyLists [1]) :=
    ready_placed id (by decide) (by decide)
  have horderly : Along step Orderly sampleSystem sampleRun := by decide +kernel
  exact ⟨s, hs, run_queues_exact ⟨_, hplaced⟩ (fun _ => rfl) horderly hs⟩

/-- A thread that is not active and on a list: made active, it is on two lists at once. -/
theorem active_while_asleep :
    (run step sampleSystem hastyRun).map (fun s => (s.kernel.status 1, s.kernel.cur,
      (s.kernel.lists (.activeThreads 0)).head, (s.kernel.lists .sleepingThreads).head)) =
        some (.active, 0, some 1, some 1) := by
  decide +kernel

end RunQueues
