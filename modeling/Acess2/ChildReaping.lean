import Acess2.RunQueues

/-! Every exited child is reported to its parent once, with its exit status.
The parent's `DeadChildLock` orders the deaths of its children: a dying thread, or the thread
that kills it, takes the lock, puts the victim on `LastDeadChild` and tells the parent; the
parent takes the victim off and hands the lock on. So at most one victim is on the list. -/
namespace ChildReaping

open Function GuardedRuns IntrusiveLists List LocksModel Option RunQueues ThreadsExit ThreadsModel
open ThreadsQueues
open MutexHandOver (mutexRelease_returns mutexAcquire_held)

variable {T O : Type}

def OwnLock (s : System T O) (l : ListName O) : Prop :=
  ∃ parent, l = .mutexWaiting (s.kernel.deadChildLock parent)

def Killed (s : System T O) (t : T) : Prop :=
  t ≠ s.kernel.threadZero ∧ (∀ v, s.inside t ≠ some (.kill v)) ∧
    ∀ u v, s.inside u = some (.kill v) → s.kernel.parent v ≠ some t

def Noted (k : Kernel T O) (t : T) : Prop := k.eventState t &&& eventDeadChild ≠ 0

def Reaping (s : System T O) (t : T) : Prop :=
  ∃ fired, s.inside t = some (.reaping fired) ∧ fired &&& eventDeadChild ≠ 0

structure Corpse (s : System T O) (p d : T) : Prop where
  zombie : s.kernel.status d = .zombie
  last : s.kernel.next d = none
  exited : s.history.exits d = some (p, s.kernel.retStatus d)

/-- A thread waits for the lock of a parent, or has it and finds the list empty. -/
def AtLock (s : System T O) (q : ListName O → List T) (p u : T) : Prop :=
  u ∈ q (.mutexWaiting (s.kernel.deadChildLock p)) ∨
    (s.kernel.mutexOwner (s.kernel.deadChildLock p) = some u ∧ s.kernel.lastDeadChild p = none)

/-- A thread is on the way to the list of the parent of its victim. -/
structure Killing (s : System T O) (q : ListName O → List T) (u v : T) : Prop where
  zombie : s.kernel.status v = .zombie
  killer : u ≠ v → gone (s.kernel.status u) = false
  aside : ∀ p, s.kernel.lastDeadChild p ≠ some v
  parent : ∃ p, s.kernel.parent v = some p ∧
    s.history.exits v = some (p, s.kernel.retStatus v) ∧ AtLock s q p u

variable {s s' : System T O} {k : Kernel T O} {q q' : ListName O → List T} {t u v d p c : T}
  {f : T → ThreadStatus} {call : Option (Call T)} {status : ℤ}

structure Untouched (s s' : System T O) (d : T) : Prop where
  status : s'.kernel.status d = s.kernel.status d := by rfl
  next : s'.kernel.next d = s.kernel.next d := by rfl
  retStatus : s'.kernel.retStatus d = s.kernel.retStatus d := by rfl
  exits : s'.history.exits d = s.history.exits d := by rfl

theorem Corpse.congr (h : Corpse s p d) (hsame : Untouched s s' d) : Corpse s' p d :=
  ⟨hsame.status.trans h.zombie, hsame.next.trans h.last,
    by rw [hsame.exits, h.exited, hsame.retStatus]⟩

theorem Killing.congr (h : Killing s q u v) (hsame : Untouched s s' v)
    (halive : gone (s.kernel.status u) = false → gone (s'.kernel.status u) = false)
    (haside : ∀ p, s'.kernel.lastDeadChild p = some v → s.kernel.lastDeadChild p = some v)
    (hparent : s'.kernel.parent v = s.kernel.parent v)
    (hlock : ∀ p, AtLock s q p u → AtLock s' q' p u) : Killing s' q' u v := by
  obtain ⟨p, hp, hexit, hat⟩ := h.parent
  exact ⟨hsame.status.trans h.zombie, fun huv => halive (h.killer huv),
    fun p hv => h.aside p (haside p hv), p, hparent.trans hp,
    by rw [hsame.exits, hexit, hsame.retStatus], hlock p hat⟩

theorem gone_congr {st st' : ThreadStatus} (hdead : gone st = true → st' = st)
    (halive : gone st = false → gone st' = false) : gone st' = gone st := by
  cases hst : gone st with
  | true => rw [hdead hst, hst]
  | false => exact halive hst

theorem ne_of_dead (ht : gone (f t) = false) (hc : gone (f c) = true) : c ≠ t := by
  rintro rfl
  cases ht.symm.trans hc

theorem ne_of_gone (ht : gone (f t) = false) (hc : f c = .zombie) : c ≠ t :=
  ne_of_dead ht (congrArg gone hc)

def idle : Option (Call T) → Bool
  | some (.kill _) => false
  | some (.reaping fired) => fired &&& eventDeadChild = 0
  | _ => true

theorem not_kill_of_idle (hidle : idle call = true) (v : T) : call ≠ some (.kill v) := by
  rintro rfl
  cases hidle

theorem not_reaping_of_idle (hidle : idle (s.inside t) = true) : ¬ Reaping s t := by
  rintro ⟨fired, hcall, hfired⟩
  rw [hcall] at hidle
  exact hfired (of_decide_eq_true hidle)

theorem and_cleared (events : BitVec 32) : events &&& ~~~eventDeadChild &&& eventDeadChild = 0 := by
  rw [BitVec.and_assoc]
  exact BitVec.and_zero

theorem alive_of_killable {st : ThreadStatus} (hst : killable st = true) : gone st = false := by
  cases st <;> first | rfl | cases hst

section

variable [DecidableEq T]

theorem not_reaping_after (hidle : idle call = true) : ¬ Reaping (s.goInside t call) t :=
  not_reaping_of_idle (by simpa [System.goInside] using hidle)

/-- The kills stay as they are when a thread changes between other calls. -/
theorem kill_iff_of_idle (hbefore : idle (s.inside t) = true)
    (hcall : ∀ v, call ≠ some (.kill v)) (u v : T) :
    update s.inside t call u = some (.kill v) ↔ s.inside u = some (.kill v) := by
  by_cases hut : u = t
  · subst hut
    rw [update_self]
    exact iff_of_false (hcall v) (not_kill_of_idle hbefore v)
  · rw [update_of_ne hut]

theorem lived_before (hc : (exitedTo s t p status).exits c = none) : s.history.exits c = none := by
  refine (update_of_ne ?_ ..).symm.trans hc
  rintro rfl
  cases (update_self ..).symm.trans hc

theorem roused_dead (k : Kernel T O) (hc : gone (k.status c) = true) :
    roused k p c = k.status c := by
  rw [roused]
  split
  · rename_i hwaits
    exact status_kept (congrArg gone hwaits.1) .active c hc
  · rfl

theorem roused_alive (k : Kernel T O) (p : T) (hc : gone (k.status c) = false) :
    gone (roused k p c) = false := by
  rw [roused]
  split
  · exact gone_exit (b := false) rfl p c hc
  · exact hc

/-- What was dead before is not the victim. -/
theorem exits_kept (ht : gone (s.kernel.status t) = false) (hc : gone (s.kernel.status c) = true) :
    (exitedTo s t p status).exits c = s.history.exits c :=
  update_of_ne (ne_of_dead ht hc) ..

/-- Kills that were under way before are not the caller's. -/
theorem inside_kept (hcall : s.inside s.kernel.cur = none) (hu : s.inside u = some (.kill v)) :
    update s.inside s.kernel.cur (some (.kill t)) u = some (.kill v) := by
  rw [update_of_ne ?_, hu]
  rintro rfl
  cases hcall.symm.trans hu

theorem kill_stays (hreaping : Reaping s s.kernel.cur) (hu : s.inside u = some (.kill v)) :
    update s.inside s.kernel.cur none u = some (.kill v) := by
  rw [update_of_ne ?_, hu]
  rintro rfl
  obtain ⟨fired, hfired, -⟩ := hreaping
  cases hfired.symm.trans hu

def NoneSelf (s : System T O) : Prop := ∀ u, s.inside u ≠ some (.kill u)

theorem NoneSelf.goInside (h : NoneSelf s) (hcall : call ≠ some (.kill t)) :
    ∀ u, update s.inside t call u ≠ some (.kill u) := by
  intro u hu
  rcases inside_update hu with ⟨rfl, heq⟩ | hbefore
  · exact hcall heq
  · exact h u hbefore

end

variable [Fintype T]

structure Inv (s : System T O) (q : ListName O → List T) : Prop where
  placed : Placed s.kernel q
  locks : Injective s.kernel.deadChildLock
  exited : ∀ c, (s.history.exits c).isSome = gone (s.kernel.status c)
  parents : ∀ c p, s.kernel.parent c = some p → s.history.exits p = none
  zero : s.history.exits s.kernel.threadZero = none
  corpse : ∀ p d, s.kernel.lastDeadChild p = some d → Corpse s p d
  killing : ∀ u v, s.inside u = some (.kill v) → Killing s q u v
  killer : ∀ u u' v, s.inside u = some (.kill v) → s.inside u' = some (.kill v) → u = u'
  waiters : ∀ p u, u ∈ q (.mutexWaiting (s.kernel.deadChildLock p)) →
    ∃ v, s.inside u = some (.kill v) ∧ s.kernel.parent v = some p
  unlocked : ∀ p, s.history.exits p = none → s.kernel.mutexOwner (s.kernel.deadChildLock p) = none →
    s.kernel.lastDeadChild p = none ∧ q (.mutexWaiting (s.kernel.deadChildLock p)) = []
  noted : ∀ p, s.history.exits p = none →
    (s.kernel.lastDeadChild p ≠ none ↔ Noted s.kernel p ∨ Reaping s p)
  reported : ∀ p c status, (p, c, status) ∈ s.history.reports →
    s.history.exits c = some (p, status) ∧ s.kernel.status c = .buried
  once : (s.history.reports.map fun r => r.2.1).Nodup
  kept : ∀ c p status, s.history.exits c = some (p, status) → s.history.exits p = none →
    (p, c, status) ∈ s.history.reports ∨ s.kernel.lastDeadChild p = some c ∨
      ∃ u, s.inside u = some (.kill c)

theorem Inv.alive (h : Inv s q) (ht : gone (s.kernel.status t) = false) :
    s.history.exits t = none := by
  have hsome := h.exited t
  rw [ht] at hsome
  exact isSome_eq_false_iff.mp hsome |> isNone_iff_eq_none.mp

theorem Inv.parent_alive (h : Inv s q) (hp : s.kernel.parent t = some p) :
    gone (s.kernel.status p) = false :=
  (h.exited p).symm.trans (congrArg isSome (h.parents t p hp))

/-- What a kernel step may change without touching the dead and those who kill -/
structure Quiet (k k' : Kernel T O) (q q' : ListName O → List T) : Prop where
  status : ∀ c, gone (k.status c) = true → k'.status c = k.status c := by intros; rfl
  alive : ∀ c, gone (k.status c) = false → gone (k'.status c) = false := by intros; assumption
  next : ∀ c, k.status c = .zombie → k'.next c = k.next c := by intros; rfl
  retStatus : ∀ c, gone (k.status c) = true → k'.retStatus c = k.retStatus c := by intros; rfl
  parent : k'.parent = k.parent := by rfl
  lastDeadChild : k'.lastDeadChild = k.lastDeadChild := by rfl
  deadChildLock : k'.deadChildLock = k.deadChildLock := by rfl
  threadZero : k'.threadZero = k.threadZero := by rfl
  mutexOwner : k'.mutexOwner = k.mutexOwner := by rfl
  eventState : k'.eventState = k.eventState := by rfl
  waiting : ∀ p, q' (.mutexWaiting (k.deadChildLock p)) = q (.mutexWaiting (k.deadChildLock p))

theorem Inv.quiet (h : Inv s q) (hplaced : Placed k q') (hquiet : Quiet s.kernel k q q') :
    Inv { s with kernel := k } q' := by
  have hsame (d : T) (hd : s.kernel.status d = .zombie) : Untouched s { s with kernel := k } d :=
    ⟨hquiet.status d (congrArg gone hd), hquiet.next d hd, hquiet.retStatus d (congrArg gone hd),
      rfl⟩
  obtain ⟨hstatus, halive, -, -, hparent, hlast, hlock, hzero, howner, hevents, hwaiting⟩ := hquiet
  cases k
  subst hparent hlast hlock hzero howner hevents
  refine { h with
    placed := hplaced,
    exited := fun c => (h.exited c).trans (gone_congr (hstatus c) (halive c)).symm,
    corpse := fun p d hd => (h.corpse p d hd).congr (hsame d (h.corpse p d hd).zombie),
    killing := fun u v hu => (h.killing u v hu).congr (hsame v (h.killing u v hu).zombie) (halive u)
      (fun _ => id) rfl fun p => Or.imp_left fun hmem => (hwaiting p).symm ▸ hmem,
    waiters := fun p u hu => h.waiters p u (hwaiting p ▸ hu),
    unlocked := fun p hp hnone => (h.unlocked p hp hnone).imp_right (hwaiting p).trans,
    reported := fun p c status hr => ?reported }
  obtain ⟨hexit, hburied⟩ := h.reported p c status hr
  exact ⟨hexit, (hstatus c (congrArg gone hburied)).trans hburied⟩

theorem zombie_unlisted (h : Placed k q) (hc : k.status c = .zombie) (l : ListName O) : c ∉ q l :=
  off_of_gone h (congrArg gone hc) l

/-- Threads enter and leave calls other than kills, and events turn into calls. -/
theorem Inv.calls (h : Inv s q) {events : T → BitVec 32} {inside : T → Option (Call T)}
    (hkill : ∀ u v, inside u = some (.kill v) ↔ s.inside u = some (.kill v))
    (hnoted : ∀ p, (events p &&& eventDeadChild ≠ 0 ∨
        ∃ fired, inside p = some (.reaping fired) ∧ fired &&& eventDeadChild ≠ 0) ↔
      Noted s.kernel p ∨ Reaping s p) :
    Inv ⟨{ s.kernel with eventState := events }, inside, s.history⟩ q := by
  refine { h with
    placed := h.placed.frame rfl, corpse := fun p d hd => (h.corpse p d hd).congr {},
    killing := fun u v hu => (h.killing u v ((hkill u v).mp hu)).congr {} id (fun _ => id) rfl
      fun _ => id,
    killer := fun u u' v hu hu' => h.killer u u' v ((hkill u v).mp hu) ((hkill u' v).mp hu'),
    waiters := fun p u hu => ?waiters, noted := fun p hp => (h.noted p hp).trans (hnoted p).symm,
    kept := fun c p status hexit hp => ?kept }
  case waiters =>
    obtain ⟨v, hv, hparent⟩ := h.waiters p u hu
    exact ⟨v, (hkill u v).mpr hv, hparent⟩
  case kept =>
    rcases h.kept c p status hexit hp with hr | hlist | ⟨u, hu⟩
    · exact .inl hr
    · exact .inr (.inl hlist)
    · exact .inr (.inr ⟨u, (hkill u c).mpr hu⟩)

variable [DecidableEq T]

theorem Inv.goInside (h : Inv s q) (hbefore : idle (s.inside t) = true)
    (hidle : idle call = true) : Inv (s.goInside t call) q := by
  refine h.calls (kill_iff_of_idle hbefore (not_kill_of_idle hidle)) fun p => or_congr Iff.rfl ?_
  by_cases hpt : p = t
  · subst hpt
    exact iff_of_false (not_reaping_after hidle) (not_reaping_of_idle hbefore)
  · rw [update_of_ne hpt]
    exact Iff.rfl

/-- The end of the wait of `Threads_WaitTID`: the events are taken over by the call. -/
theorem fired_inv (h : Inv s q) (hbefore : idle (s.inside s.kernel.cur) = true) :
    Inv (System.goInside { s with kernel := threadsClearEvent s.kernel eventDeadChild } s.kernel.cur
      (some (.reaping (s.kernel.eventState s.kernel.cur &&& eventDeadChild)))) q := by
  refine h.calls (kill_iff_of_idle hbefore (by simp)) fun p => ?_
  by_cases hp : p = s.kernel.cur
  · subst hp
    have hcleared := and_cleared (s.kernel.eventState s.kernel.cur)
    have hfired : s.kernel.eventState s.kernel.cur &&& eventDeadChild &&& eventDeadChild =
        s.kernel.eventState s.kernel.cur &&& eventDeadChild := by
      rw [BitVec.and_assoc, BitVec.and_self]
    simp only [update_self, hcleared, some.injEq, Call.reaping.injEq,
      exists_eq_left', hfired, Noted, not_reaping_of_idle hbefore, ne_eq, not_true_eq_false,
      false_or, or_false]
  · rw [update_of_ne hp, update_of_ne hp]
    exact Iff.rfl

theorem disown_inv (h : Inv s q)
    (hchild : ∀ u v, s.inside u = some (.kill v) → s.kernel.parent v ≠ some t) :
    Inv { s with kernel := disown s.kernel t } q := by
  refine { h with
    placed := h.placed.frame rfl, parents := ?parents,
    corpse := fun p d hd => (h.corpse p d hd).congr {},
    killing := fun u v hu => (h.killing u v hu).congr {} id (fun _ => id) (if_neg (hchild u v hu))
      fun _ => id,
    waiters := ?waiters }
  case parents =>
    intro c p hp
    change (if s.kernel.parent c = some t then some s.kernel.threadZero
      else s.kernel.parent c) = some p at hp
    split at hp
    · cases hp
      exact h.zero
    · exact h.parents c p hp
  case waiters =>
    intro p u hu
    obtain ⟨v, hv, hp⟩ := h.waiters p u hu
    exact ⟨v, hv, (if_neg (hchild u v hv)).trans hp⟩

/-- What `Threads_Kill` changes up to the point where it has the lock of the parent or sleeps
for it -/
structure Doomed (s : System T O) (t p : T) (status : ℤ) (k : Kernel T O)
    (q q' : ListName O → List T) : Prop where
  placed : Placed k q'
  victim : k.status t = .zombie
  exit : k.retStatus t = status
  dead : ∀ c, gone (s.kernel.status c) = true → k.status c = s.kernel.status c
  alive : ∀ c, c ≠ t → gone (s.kernel.status c) = false → gone (k.status c) = false
  next : ∀ c, s.kernel.status c = .zombie → k.next c = s.kernel.next c
  retStatus : ∀ c, gone (s.kernel.status c) = true → k.retStatus c = s.kernel.retStatus c
  parent : k.parent = s.kernel.parent
  lastDeadChild : k.lastDeadChild = s.kernel.lastDeadChild
  deadChildLock : k.deadChildLock = s.kernel.deadChildLock
  threadZero : k.threadZero = s.kernel.threadZero
  eventState : k.eventState = s.kernel.eventState
  owner : ∀ m u, s.kernel.mutexOwner m = some u → k.mutexOwner m = some u
  waiting : ∀ m u, u ∈ q' (.mutexWaiting m) ↔ u ∈ q (.mutexWaiting m) ∨
      (u = s.kernel.cur ∧ m = s.kernel.deadChildLock p ∧ s.kernel.mutexOwner m ≠ none)
  free : ∀ m, k.mutexOwner m = none → s.kernel.mutexOwner m = none
  locked : s.kernel.mutexOwner (s.kernel.deadChildLock p) ≠ none ∨
    k.mutexOwner (s.kernel.deadChildLock p) = some s.kernel.cur ∧ s.kernel.lastDeadChild p = none

section Doom

variable (h : Inv s q) (hcall : s.inside s.kernel.cur = none)
  (ht : gone (s.kernel.status t) = false) (hdoomed : Doomed s t p status k q q')

include ht hdoomed in
theorem Doomed.untouched (hc : s.kernel.status c = .zombie) (inside : T → Option (Call T)) :
    Untouched s ⟨k, inside, exitedTo s t p status⟩ c :=
  ⟨hdoomed.dead c (congrArg gone hc), hdoomed.next c hc, hdoomed.retStatus c (congrArg gone hc),
    exits_kept ht (congrArg gone hc)⟩

include h hdoomed in
theorem Doomed.waiters (hcall : s.inside s.kernel.cur = none) (hparent : s.kernel.parent t = some p)
    (p' : T) (hu : u ∈ q' (.mutexWaiting (s.kernel.deadChildLock p'))) :
    ∃ v, update s.inside s.kernel.cur (some (.kill t)) u = some (.kill v) ∧
      s.kernel.parent v = some p' := by
  rcases (hdoomed.waiting _ _).mp hu with hmem | ⟨rfl, hlock, -⟩
  · obtain ⟨v, hv, hp'⟩ := h.waiters p' u hmem
    exact ⟨v, inside_kept hcall hv, hp'⟩
  · obtain rfl := h.locks hlock
    exact ⟨t, update_self .., hparent⟩

include h hdoomed in
omit [DecidableEq T] in
theorem Doomed.unlocked (p' : T) (hp' : s.history.exits p' = none)
    (hnone : k.mutexOwner (s.kernel.deadChildLock p') = none) :
    s.kernel.lastDeadChild p' = none ∧ q' (.mutexWaiting (s.kernel.deadChildLock p')) = [] := by
  have hfree := hdoomed.free _ hnone
  refine (h.unlocked p' hp' hfree).imp_right fun hempty => ?_
  refine eq_nil_iff_forall_not_mem.mpr fun u hu => ?_
  rcases (hdoomed.waiting _ _).mp hu with hmem | ⟨-, -, hheld⟩
  · rw [hempty] at hmem
    cases hmem
  · exact hheld hfree

include h ht hdoomed in
theorem Doomed.killing (hcur : gone (s.kernel.status s.kernel.cur) = false)
    (hkill : ∀ v, s.inside t ≠ some (.kill v)) (hparent : s.kernel.parent t = some p)
    (hu : update s.inside s.kernel.cur (some (.kill t)) u = some (.kill v)) :
    Killing ⟨k, update s.inside s.kernel.cur (some (.kill t)), exitedTo s t p status⟩ q' u v := by
  obtain ⟨-, hvictim, hret, -, halive, -, -, hparents, hlast, hlocks, -, -, howner, hwaiting, -,
    hlocked⟩ := id hdoomed
  rcases inside_update hu with ⟨rfl, hcall'⟩ | hbefore
  · obtain rfl := Call.kill.inj (some.inj hcall')
    refine ⟨hvictim, fun hne => halive _ hne hcur, fun p' hp' => ?_, p, ?_, ?_, ?_⟩
    · exact ne_of_gone ht (h.corpse p' t (hlast ▸ hp')).zombie rfl
    · exact (congrFun hparents t).trans hparent
    · exact hret ▸ update_self ..
    · dsimp only [AtLock]
      rw [hlocks, hlast]
      exact hlocked.imp (fun hheld => (hwaiting _ _).mpr (.inr ⟨rfl, rfl, hheld⟩)) id
  have hut : u ≠ t := by
    rintro rfl
    exact hkill v hbefore
  refine (h.killing u v hbefore).congr (hdoomed.untouched ht (h.killing u v hbefore).zombie _)
    (halive u hut) (fun p' hv => hlast ▸ hv) (congrFun hparents v) fun p' hat => ?_
  dsimp only [AtLock]
  rw [hlocks, hlast]
  exact hat.imp (fun hmem => (hwaiting _ _).mpr (.inl hmem)) fun hown => ⟨howner _ _ hown.1, hown.2⟩

include h ht in
theorem killer_unique {u' : T}
    (hu : update s.inside s.kernel.cur (some (.kill t)) u = some (.kill v))
    (hu' : update s.inside s.kernel.cur (some (.kill t)) u' = some (.kill v)) : u = u' := by
  have hfresh (w : T) : s.inside w ≠ some (.kill t) := fun hw =>
    ne_of_gone ht (h.killing w t hw).zombie rfl
  rcases inside_update hu with ⟨rfl, hv⟩ | hbefore <;>
    rcases inside_update hu' with ⟨rfl, hv'⟩ | hbefore'
  · rfl
  · obtain rfl := Call.kill.inj (some.inj hv)
    exact absurd hbefore' (hfresh u')
  · obtain rfl := Call.kill.inj (some.inj hv')
    exact absurd hbefore (hfresh u)
  · exact h.killer u u' v hbefore hbefore'

include h hcall ht hdoomed in
/-- The caller is in the middle of a kill, and the victim has exited. -/
theorem Inv.doom (hcur : gone (s.kernel.status s.kernel.cur) = false)
    (hzero : t ≠ s.kernel.threadZero) (hkill : ∀ v, s.inside t ≠ some (.kill v))
    (hchild : ∀ c, s.kernel.parent c ≠ some t) (hparent : s.kernel.parent t = some p) :
    Inv ⟨k, update s.inside s.kernel.cur (some (.kill t)), exitedTo s t p status⟩ q' := by
  have hkilling (u v : T) := hdoomed.killing h ht hcur hkill hparent (u := u) (v := v)
  have hcorpse (p' d : T) (hd : s.kernel.lastDeadChild p' = some d) :=
    (h.corpse p' d hd).congr (hdoomed.untouched ht (h.corpse p' d hd).zombie
      (update s.inside s.kernel.cur (some (.kill t))))
  have hwaiters (p' u : T) := hdoomed.waiters h hcall hparent p' (u := u)
  have hunlocked (p' : T) := hdoomed.unlocked h p'
  obtain ⟨hplaced, hvictim, -, hdead, halive, -, -, hparents, hlast, hlocks, hzeros, hevents, -⟩ :=
    hdoomed
  have hexits (c : T) (hc : c ≠ t) : (exitedTo s t p status).exits c = s.history.exits c :=
    update_of_ne hc ..
  have hexit : (exitedTo s t p status).exits t = some (p, status) := update_self ..
  cases k
  subst hparents hlast hlocks hzeros hevents
  refine ⟨hplaced, h.locks, ?exited, ?parents, (hexits _ hzero.symm).trans h.zero, hcorpse,
    hkilling,
    fun u u' v => killer_unique h ht, hwaiters, fun p' hp' => hunlocked p' (lived_before hp'),
    ?noted, ?reported, h.once, ?kept⟩
  case exited =>
    intro c
    by_cases hct : c = t
    · subst hct
      exact (congrArg isSome hexit).trans (congrArg gone hvictim).symm
    · exact (congrArg isSome (hexits c hct)).trans
        ((h.exited c).trans (gone_congr (hdead c) (halive c hct)).symm)
  case parents =>
    intro c p' hc
    refine (hexits p' ?_).trans (h.parents c p' hc)
    rintro rfl
    exact hchild c hc
  case noted =>
    intro p' hp'
    refine (h.noted p' (lived_before hp')).trans (or_congr Iff.rfl (exists_congr fun fired =>
      and_congr_left fun _ => ?_))
    by_cases hcur : p' = s.kernel.cur
    · subst hcur
      simp [hcall]
    · simp [hcur]
  case reported =>
    intro p' c st hr
    obtain ⟨hexit', hburied⟩ := h.reported p' c st hr
    have hgone := congrArg gone hburied
    exact ⟨(exits_kept ht hgone).trans hexit', (hdead c hgone).trans hburied⟩
  case kept =>
    intro c p' st hexit' hp'
    by_cases hct : c = t
    · subst hct
      exact .inr (.inr ⟨s.kernel.cur, update_self ..⟩)
    · refine (h.kept c p' st ((hexits c hct).symm.trans hexit') (lived_before hp')).imp id ?_
      exact Or.imp id fun ⟨u, hu⟩ => ⟨u, inside_kept hcall hu⟩

end Doom

theorem kill_of_others (h : Inv s q) (hcall : s.inside s.kernel.cur = some (.kill t))
    (hidle : idle call = true) (hu : update s.inside s.kernel.cur call u = some (.kill v)) :
    s.inside u = some (.kill v) ∧ u ≠ s.kernel.cur ∧ v ≠ t := by
  have hucur : u ≠ s.kernel.cur := by
    rintro rfl
    rw [update_self] at hu
    exact not_kill_of_idle hidle v hu
  rw [update_of_ne hucur] at hu
  refine ⟨hu, hucur, ?_⟩
  rintro rfl
  exact hucur (h.killer u s.kernel.cur v hu hcall)

/-- The parent `s.kernel.cur` has taken `dead` off its list and handed its lock to `owner`. -/
structure Handed (s : System T O) (q q' : ListName O → List T) (dead : T) (owner : Option T)
    (rest : List T) (k : Kernel T O) : Prop where
  placed : Placed k q'
  listed : s.kernel.lastDeadChild s.kernel.cur = some dead
  buried : k.status dead = .buried
  status : ∀ d, d ≠ dead → gone (s.kernel.status d) = true → k.status d = s.kernel.status d
  alive : ∀ d, gone (s.kernel.status d) = false → gone (k.status d) = false
  next : ∀ d, s.kernel.status d = .zombie → k.next d = s.kernel.next d
  retStatus : k.retStatus = s.kernel.retStatus
  parent : k.parent = s.kernel.parent
  deadChildLock : k.deadChildLock = s.kernel.deadChildLock
  threadZero : k.threadZero = s.kernel.threadZero
  lists : ∀ p, k.lastDeadChild p = if p = s.kernel.cur then none else s.kernel.lastDeadChild p
  owners : ∀ p, k.mutexOwner (s.kernel.deadChildLock p) =
    if p = s.kernel.cur then owner else s.kernel.mutexOwner (s.kernel.deadChildLock p)
  queues : ∀ p, q' (.mutexWaiting (s.kernel.deadChildLock p)) =
    if p = s.kernel.cur then rest else q (.mutexWaiting (s.kernel.deadChildLock p))
  waited : q (.mutexWaiting (s.kernel.deadChildLock s.kernel.cur)) = owner.toList ++ rest
  nobody : owner = none → rest = []
  events : ∀ p, k.eventState p &&& eventDeadChild =
    if p = s.kernel.cur then 0 else s.kernel.eventState p &&& eventDeadChild

section Handed

variable {dead : T} {owner : Option T} {rest : List T} {inside : T → Option (Call T)}
  {reports : List (T × T × ℤ)} (hk : Handed s q q' dead owner rest k)
include hk

theorem Handed.untouched (hd : s.kernel.status d = .zombie) (hdd : d ≠ dead) :
    Untouched s ⟨k, inside, ⟨s.history.exits, reports⟩⟩ d :=
  ⟨hk.status d hdd (congrArg gone hd), hk.next d hd, congrFun hk.retStatus d, rfl⟩

theorem Handed.mem_before (hu : u ∈ q' (.mutexWaiting (s.kernel.deadChildLock p))) :
    u ∈ q (.mutexWaiting (s.kernel.deadChildLock p)) := by
  rw [hk.queues] at hu
  split_ifs at hu with hcur
  · rw [hcur, hk.waited]
    exact mem_append_right _ hu
  · exact hu

theorem Handed.atLock (hat : AtLock s q p u) :
    AtLock ⟨k, inside, ⟨s.history.exits, reports⟩⟩ q' p u := by
  rw [AtLock, hk.deadChildLock, hk.queues, hk.owners, hk.lists]
  by_cases hcur : p = s.kernel.cur
  · subst hcur
    simp only [if_true]
    have hmem := hat.resolve_right fun hnone => (by cases hk.listed.symm.trans hnone.2)
    rw [hk.waited] at hmem
    rcases mem_append.mp hmem with hfirst | hrest
    · exact .inr ⟨mem_toList.mp hfirst, trivial⟩
    · exact .inl hrest
  · simp only [if_neg hcur]
    exact hat

variable (h : Inv s q)
include h

theorem Handed.corpse (hd : k.lastDeadChild p = some d) :
    Corpse ⟨k, inside, ⟨s.history.exits, reports⟩⟩ p d := by
  rw [hk.lists] at hd
  split_ifs at hd with hp
  have hcorpse := h.corpse p d hd
  refine hcorpse.congr (hk.untouched hcorpse.zombie ?_)
  rintro rfl
  have hexit := hcorpse.exited.symm.trans (h.corpse _ _ hk.listed).exited
  exact hp (Prod.mk.inj (some.inj hexit)).1

theorem Handed.killing (hu : s.inside u = some (.kill v)) :
    Killing ⟨k, inside, ⟨s.history.exits, reports⟩⟩ q' u v := by
  have hkilling := h.killing u v hu
  refine hkilling.congr (hk.untouched hkilling.zombie ?_) (hk.alive u) (fun p hv => ?_)
    (congrFun hk.parent v) fun p => hk.atLock
  · rintro rfl
    exact hkilling.aside _ hk.listed
  · rw [hk.lists] at hv
    split_ifs at hv
    exact hv

theorem Handed.unlocked (hp : s.history.exits p = none)
    (hnone : k.mutexOwner (s.kernel.deadChildLock p) = none) :
    k.lastDeadChild p = none ∧ q' (.mutexWaiting (s.kernel.deadChildLock p)) = [] := by
  rw [hk.owners] at hnone
  rw [hk.lists, hk.queues]
  split_ifs at hnone ⊢
  · exact ⟨rfl, hk.nobody hnone⟩
  · exact h.unlocked p hp hnone

theorem Handed.noted (hp : s.history.exits p = none) : k.lastDeadChild p ≠ none ↔ Noted k p ∨
    Reaping ⟨k, update s.inside s.kernel.cur none, ⟨s.history.exits, reports⟩⟩ p := by
  rw [Noted, hk.events, hk.lists, Reaping]
  by_cases hcur : p = s.kernel.cur
  · subst hcur
    simp
  · simp only [if_neg hcur, update_of_ne hcur]
    exact h.noted p hp

end Handed

variable [DecidableEq O]

/-- The calls are made in order, and no kill runs into another one. -/
def Undisturbed (s : System T O) (op : Op T O) : Prop :=
  Orderly s op ∧ match op with
    | .takeFirst l => ¬ OwnLock s l
    | .intSleep _ _ _ list => ∀ l, list = .queue l → ¬ OwnLock s l
    | .kill t _ => Killed s t
    | _ => True

theorem addActive_quiet (h : Inv s q) (ht : gone (s.kernel.status t) = false)
    (hoff : ∀ l, t ∉ q l) (heq : threadsAddActive s.kernel t = some k) :
    ∃ q', Inv { s with kernel := k } q' := by
  have hact : s.kernel.status t ≠ .active := fun hact => by simp [threadsAddActive, hact] at heq
  obtain ⟨n, L, q', hwake, hplaced, hsame⟩ := threadsAddActive_spec h.placed hact hoff
  have hnext (c : T) (hc : s.kernel.status c = .zombie) : k.next c = s.kernel.next c :=
    threadsAddActive_next h.placed.holds heq (zombie_unlisted h.placed hc) (ne_of_gone ht hc)
  cases heq.symm.trans hwake
  exact ⟨q', h.quiet hplaced {
    status := status_kept ht .active, alive := gone_exit (b := false) rfl t, next := hnext,
    waiting := fun p => (hsame _ fun p => by simp).2 }⟩

omit [DecidableEq T] in
theorem takeFirst_quiet (h : Inv s q) {l : ListName O} (hl : IsWait l) (hown : ¬ OwnLock s l)
    (hhead : (s.kernel.lists l).head = some t) :
    ∃ q', Inv { s with kernel := popWaiter s.kernel l t } q' := by
  obtain ⟨ys, hys⟩ := h.placed.holds.head_cons hhead
  refine ⟨_, h.quiet (h.placed.pop_wait hl hys rfl (h.placed.tail_popped hl hys)).1 {
    waiting := fun p => update_of_ne ?_ _ _ }⟩
  rintro rfl
  exact hown ⟨p, rfl⟩

omit [Fintype T] in
/-- `Threads_int_Sleep` changes fields of the current thread, links and lists. -/
theorem threadsIntSleep_fields (k : Kernel T O) (st : ThreadStatus) (ptr : Option O) (num : ℤ)
    (list : SleepList O) :
    ∃ n L, threadsIntSleep k st ptr num list = { k with
      next := n, lists := L, numActive := k.numActive - 1
      status := update k.status k.cur st
      retStatus := update k.retStatus k.cur num
      waitPointer := update k.waitPointer k.cur ptr } := by
  unfold threadsIntSleep
  cases list with
  | queue l =>
    dsimp only
    split
    all_goals exact ⟨_, _, rfl⟩
  | self => exact ⟨_, _, rfl⟩
  | nowhere => exact ⟨_, _, rfl⟩

theorem intSleep_quiet (h : Inv s q) (hact : s.kernel.status s.kernel.cur = .active)
    {status : ThreadStatus} {list : SleepList O} (ptr : Option O) (num : ℤ)
    (hst : sleepStatus status = true) (hlist : ∀ l, list = .queue l → IsWait l ∧ status = l.status)
    (hown : ∀ l, list = .queue l → ¬ OwnLock s l) :
    ∃ q', Inv { s with kernel := threadsIntSleep s.kernel status ptr num list } q' := by
  have hcur := congrArg gone hact
  have hsleeps : gone status = false := by cases status <;> first | rfl | cases hst
  obtain ⟨q', hplaced, hwaiting⟩ := threadsIntSleep_placed h.placed hact ptr num hst hlist
  have hnext (c : T) (hc : s.kernel.status c = .zombie) :
      (threadsIntSleep s.kernel status ptr num list).next c = s.kernel.next c :=
    threadsIntSleep_next h.placed status ptr num (fun l hl => (hlist l hl).1)
      (zombie_unlisted h.placed hc) (ne_of_gone hcur hc)
  obtain ⟨n, L, hfields⟩ := threadsIntSleep_fields s.kernel status ptr num list
  rw [hfields] at hplaced hnext ⊢
  exact ⟨q', h.quiet hplaced {
    status := status_kept hcur status, alive := gone_exit hsleeps s.kernel.cur, next := hnext,
    retStatus := fun c hc => update_of_ne (ne_of_dead hcur hc) ..,
    waiting := fun p => hwaiting _ fun hl => hown _ hl ⟨p, rfl⟩ }⟩

theorem sleep_quiet (h : Inv s q) (hact : s.kernel.status s.kernel.cur = .active)
    (heq : threadsSleep s.kernel = some k) : ∃ q', Inv { s with kernel := k } q' := by
  have hcur := congrArg gone hact
  cases hmsg : s.kernel.messages s.kernel.cur with
  | true =>
    rw [threadsSleep, if_pos hmsg] at heq
    cases heq
    exact ⟨q, h⟩
  | false =>
    obtain ⟨n, e, hsleep, hplaced⟩ := threadsSleep_spec h.placed hact hmsg
    have hnext (c : T) (hc : s.kernel.status c = .zombie) : n c = s.kernel.next c := by
      rw [threadsSleep, if_neg (by simp [hmsg])] at hsleep
      have hholds : Holds ((threadsRemActive s.kernel).setStatus s.kernel.cur .sleeping).next
        ((threadsRemActive s.kernel).setStatus s.kernel.cur .sleeping).lists q := h.placed.holds
      exact threadsIntAddToList_next hholds hsleep (zombie_unlisted h.placed hc _)
        (ne_of_gone hcur hc)
    cases heq.symm.trans hsleep
    exact ⟨_, h.quiet hplaced {
      status := status_kept hcur .sleeping, alive := gone_exit (b := false) rfl s.kernel.cur,
      next := hnext,
      waiting := fun p => update_of_ne (by simp) _ _ }⟩

theorem wake_quiet (h : Inv s q) (hst : s.kernel.status t = .sleeping) {r : WakeResult}
    (heq : threadsWake s.kernel t = some (r, k)) : ∃ q', Inv { s with kernel := k } q' := by
  have ht := congrArg gone hst
  obtain ⟨n, L, c, q', hwake, hplaced, hwaits, hnext⟩ := threadsWake_sleeping h.placed hst
  cases heq.symm.trans hwake
  exact ⟨q', h.quiet hplaced {
    status := status_kept ht .active, alive := gone_exit (b := false) rfl t,
    next := fun d hd => hnext d (zombie_unlisted h.placed hd) (ne_of_gone ht hd),
    waiting := fun p => hwaits _ trivial }⟩

theorem reschedule_quiet (h : Inv s q) {noTaskSwitch : Bool}
    (heq : procReschedule s.kernel noTaskSwitch = some k) :
    ∃ q', Inv { s with kernel := k } q' := by
  obtain ⟨n, L, c, q', hswitch, hplaced, hsame⟩ := procReschedule_spec h.placed noTaskSwitch
  have hnext (d : T) (hd : s.kernel.status d = .zombie) : k.next d = s.kernel.next d := by
    refine procReschedule_next h.placed heq ?_
    rw [hd]
    exact ThreadStatus.noConfusion
  cases heq.symm.trans hswitch
  exact ⟨q', h.quiet hplaced { next := hnext, waiting := fun p => (hsame _ fun p => by simp).2 }⟩

theorem waitTID_inv (h : Inv s q) (hfree : Free s) : ∃ q', Inv s.waitTID q' := by
  have hidle : idle (s.inside s.kernel.cur) = true := congrArg idle hfree.2
  rw [System.waitTID, threadsWaitEvents, if_neg (by decide)]
  by_cases hnone : s.kernel.eventState s.kernel.cur &&& eventDeadChild = 0
  · rw [if_pos hnone]
    obtain ⟨q', hq'⟩ : ∃ q', Inv { s with
        kernel := threadsIntSleep s.kernel .eventSleep none eventDeadChild.toInt .self } q' :=
      intSleep_quiet h hfree.1 none _ rfl (fun l hl => (by cases hl)) fun l hl => (by cases hl)
    exact ⟨q', hq'.goInside hidle rfl⟩
  · rw [if_neg hnone]
    exact ⟨q, fired_inv h hidle⟩

section Push

variable {parent : T} (h : Inv s q) (hcall : s.inside s.kernel.cur = some (.kill t))
  (hidle : idle call = true)
include h hcall hidle

omit [DecidableEq O] in
theorem push_noted (hlives : s.history.exits p = none) :
    (laidOut s.kernel t parent).lastDeadChild p ≠ none ↔
      Noted (told (laidOut s.kernel t parent) parent) p ∨
        Reaping ⟨k, update s.inside s.kernel.cur call, s.history⟩ p := by
  change update s.kernel.lastDeadChild parent (some t) p ≠ none ↔
    update s.kernel.eventState parent (s.kernel.eventState parent ||| eventDeadChild) p
      &&& eventDeadChild ≠ 0 ∨ ∃ fired, update s.inside s.kernel.cur call p = _ ∧ _
  by_cases hpp : p = parent
  · subst hpp
    rw [update_self, update_self]
    refine iff_of_true (by simp) (.inl fun hzero => ?_)
    rw [BitVec.and_or_distrib_right, BitVec.and_self] at hzero
    exact absurd (BitVec.or_eq_zero_iff.mp hzero).2 (by decide)
  rw [update_of_ne hpp, update_of_ne hpp, h.noted p hlives]
  refine or_congr Iff.rfl ?_
  by_cases hcur : p = s.kernel.cur
  · subst hcur
    refine iff_of_false ?_ (not_reaping_after hidle)
    rintro ⟨fired, hfired, -⟩
    cases hcall.symm.trans hfired
  · rw [update_of_ne hcur]
    exact Iff.rfl

omit [DecidableEq O] hidle in
theorem push_kept {c : T} {st st' : ℤ} (hexit : s.history.exits t = some (parent, st))
    (hempty : s.kernel.lastDeadChild parent = none) (hexit' : s.history.exits c = some (p, st'))
    (hlives : s.history.exits p = none) : (p, c, st') ∈ s.history.reports ∨
      update s.kernel.lastDeadChild parent (some t) p = some c ∨
        ∃ u, update s.inside s.kernel.cur call u = some (.kill c) := by
  by_cases hct : c = t
  · subst hct
    obtain ⟨rfl, -⟩ := Prod.mk.inj (some.inj (hexit'.symm.trans hexit))
    exact .inr (.inl (update_self ..))
  rcases h.kept c p st' hexit' hlives with hr | hlist | ⟨u, hu⟩
  · exact .inl hr
  · refine .inr (.inl ((update_of_ne ?_ ..).trans hlist))
    rintro rfl
    cases hempty.symm.trans hlist
  · refine .inr (.inr ⟨u, (update_of_ne ?_ ..).trans hu⟩)
    rintro rfl
    exact hct (Call.kill.inj (some.inj (hu.symm.trans hcall)))

/-- The caller has the lock: it puts the victim on the list and tells the parent. -/
theorem push_inv (hoff : ∀ l, s.kernel.cur ∉ q l) (heq : threadsKillEnd s.kernel t = some k) :
    ∃ q', Inv ⟨k, update s.inside s.kernel.cur call, s.history⟩ q' := by
  obtain ⟨hst, -, haside, p, hp, hexit, hlock⟩ := h.killing _ _ hcall
  obtain ⟨howner, hempty⟩ := hlock.resolve_left (hoff _)
  obtain ⟨parent, n, L, c, q', hparent, rfl, hplaced, hwaits, hnext⟩ :=
    threadsKillEnd_spec h.placed (zombie_unlisted h.placed hst) heq
  obtain rfl := some.inj (hparent.symm.trans hp)
  have hlive := h.parent_alive hp
  have hwaiting (p : T) : q' (.mutexWaiting (s.kernel.deadChildLock p)) =
      q (.mutexWaiting (s.kernel.deadChildLock p)) := hwaits _ trivial
  have hdead (c : T) (hc : gone (s.kernel.status c) = true) := roused_dead s.kernel (p := parent) hc
  have hnexts (d : T) (hd : s.kernel.status d = .zombie) :
      n d = update s.kernel.next t (s.kernel.lastDeadChild parent) d :=
    hnext d (zombie_unlisted h.placed hd) (ne_of_gone hlive hd)
  have hsame (d : T) (hd : s.kernel.status d = .zombie) (hdt : d ≠ t) :
      Untouched s ⟨{ told (laidOut s.kernel t parent) parent with
          next := n, lists := L, numActive := c, status := roused s.kernel parent },
        update s.inside s.kernel.cur call, s.history⟩ d :=
    { status := hdead d (congrArg gone hd), next := (hnexts d hd).trans (update_of_ne hdt ..) }
  have hlists (p : T) : (laidOut s.kernel t parent).lastDeadChild p =
      if p = parent then some t else s.kernel.lastDeadChild p := update_apply ..
  have hothers (u v : T) := kill_of_others h hcall hidle (u := u) (v := v)
  refine ⟨q', { h with
    placed := hplaced,
    exited := fun c => (h.exited c).trans
      (gone_congr (hdead c) (roused_alive s.kernel parent)).symm,
    corpse := fun p' d hd => ?corpse, killing := fun u v hu => ?killing,
    killer := fun u u' v hu hu' => h.killer u u' v (hothers u v hu).1 (hothers u' v hu').1,
    waiters := fun p' u hu => ?waiters, unlocked := fun p' hlives hnone => ?unlocked,
    noted := fun p' hlives => push_noted h hcall hidle hlives,
    reported := fun p' c st hr => ?reported,
    kept := fun c p' st hexit' => push_kept h hcall hexit hempty hexit' }⟩
  case corpse =>
    rcases ite_eq_iff.mp ((hlists p').symm.trans hd) with ⟨rfl, hdt⟩ | ⟨-, hd'⟩
    · cases hdt
      refine ⟨(hdead t (congrArg gone hst)).trans hst, (hnexts t hst).trans ?_, hexit⟩
      rw [update_self, hempty]
    · refine (h.corpse p' d hd').congr (hsame d (h.corpse p' d hd').zombie ?_)
      rintro rfl
      exact haside p' hd'
  case killing =>
    obtain ⟨hbefore, hucur, hvt⟩ := hothers u v hu
    refine (h.killing u v hbefore).congr (hsame v (h.killing u v hbefore).zombie hvt)
      (roused_alive s.kernel parent) (fun p' hv => ?_) rfl fun p' => Or.imp ?_ ?_
    · rcases ite_eq_iff.mp ((hlists p').symm.trans hv) with ⟨-, htv⟩ | ⟨-, hv⟩
      · exact absurd (some.inj htv).symm hvt
      · exact hv
    · exact fun hmem => (hwaiting p').symm ▸ hmem
    · rintro ⟨howner', hnone⟩
      refine ⟨howner', (hlists p').trans ?_⟩
      rw [if_neg, hnone]
      rintro rfl
      exact hucur (some.inj (howner'.symm.trans howner))
  case waiters =>
    have hmem := hwaiting p' ▸ hu
    obtain ⟨v, hv, hp'⟩ := h.waiters p' u hmem
    refine ⟨v, (update_of_ne ?_ ..).trans hv, hp'⟩
    rintro rfl
    exact hoff _ hmem
  case unlocked =>
    have hpp : p' ≠ parent := by
      rintro rfl
      cases hnone.symm.trans howner
    exact (h.unlocked p' hlives hnone).imp ((hlists p').trans (if_neg hpp)).trans
      (hwaiting p').trans
  case reported =>
    obtain ⟨hexit', hburied⟩ := h.reported p' c st hr
    exact ⟨hexit', (hdead c (congrArg gone hburied)).trans hburied⟩

end Push

variable {n : T → Option T} {L : ListName O → ThreadList T} {c : ℤ}

theorem doomed_locked (h : Inv s q) (ht : gone (s.kernel.status t) = false)
    (hslain : Placed (slain s.kernel t status n L c) q') (hwaits : ∀ l, IsWait l → q' l = q l)
    (hnext : ∀ u, (∀ l, u ∉ q l) → n u = s.kernel.next u) (hp : s.history.exits p = none)
    (hfree : s.kernel.mutexOwner (s.kernel.deadChildLock p) = none) :
    Doomed { s with kernel := disown s.kernel t } t p status { slain s.kernel t status n L c with
      mutexOwner := update s.kernel.mutexOwner
        (s.kernel.deadChildLock p) (some s.kernel.cur) } q q' := by
  constructor
  case placed => exact hslain.frame rfl
  case victim => exact update_self ..
  case exit => exact update_self ..
  case dead => exact status_kept ht .zombie
  case alive => exact fun d hdt hd => (congrArg gone (update_of_ne hdt ..)).trans hd
  case next => exact fun d hd => hnext d (zombie_unlisted h.placed hd)
  case retStatus => exact fun d hd => update_of_ne (ne_of_dead ht hd) ..
  case owner =>
    intro m u hu
    refine (update_of_ne ?_ ..).trans hu
    rintro rfl
    cases hfree.symm.trans hu
  case waiting =>
    intro m u
    rw [hwaits (.mutexWaiting m) trivial]
    refine ⟨.inl, fun hu => hu.resolve_right ?_⟩
    rintro ⟨-, rfl, hheld⟩
    exact hheld hfree
  case free =>
    intro m hm
    refine (update_of_ne ?_ ..).symm.trans hm
    rintro rfl
    cases (update_self ..).symm.trans hm
  case locked => exact .inr ⟨update_self .., (h.unlocked p hp hfree).1⟩
  all_goals rfl

theorem doomed_asleep (h : Inv s q) (hact : s.kernel.status s.kernel.cur = .active)
    (ht : gone (s.kernel.status t) = false) (hcur : s.kernel.cur ≠ t)
    (hslain : Placed (slain s.kernel t status n L c) q') (hwaits : ∀ l, IsWait l → q' l = q l)
    (hnext : ∀ u, (∀ l, u ∉ q l) → n u = s.kernel.next u)
    (hheld : s.kernel.mutexOwner (s.kernel.deadChildLock p) ≠ none) :
    ∃ q'', Doomed { s with kernel := disown s.kernel t } t p status
      (mutexAcquire (slain s.kernel t status n L c) (s.kernel.deadChildLock p)) q q'' := by
  have hawake : (slain s.kernel t status n L c).status (slain s.kernel t status n L c).cur =
      .active := (update_of_ne hcur ..).trans hact
  obtain ⟨n', e, hsleep, hplaced, hnext'⟩ := mutexAcquire_held hslain hawake hheld
  rw [hsleep] at hplaced ⊢
  -- what two updates leave of the fields of the dead
  have hdead {β : Type} (f : T → β) (x y : β) (d : T) (hd : gone (s.kernel.status d) = true) :
      update (update f t x) s.kernel.cur y d = f d :=
    (update_of_ne (ne_of_dead (congrArg gone hact) hd) ..).trans
      (update_of_ne (ne_of_dead ht hd) ..)
  refine ⟨update q' (.mutexWaiting (s.kernel.deadChildLock p))
    (q' (.mutexWaiting (s.kernel.deadChildLock p)) ++ [s.kernel.cur]), ?_⟩
  constructor
  case placed => exact hplaced
  case victim => exact (update_of_ne hcur.symm ..).trans (update_self ..)
  case exit => exact (update_of_ne hcur.symm ..).trans (update_self ..)
  case dead => exact hdead _ _ _
  case alive =>
    exact fun d hdt hd => gone_exit (b := false) rfl s.kernel.cur d
      ((congrArg gone (update_of_ne hdt ..)).trans hd)
  case next =>
    intro d hd
    have hgone : gone (s.kernel.status d) = true := congrArg gone hd
    have hd' : (slain s.kernel t status n L c).status d = .zombie :=
      (update_of_ne (ne_of_dead ht hgone) ..).trans hd
    exact (hnext' d (zombie_unlisted hslain hd') (ne_of_dead (congrArg gone hact) hgone)).trans
      (hnext d (zombie_unlisted h.placed hd))
  case retStatus => exact hdead _ _ _
  case owner => exact fun _ _ hu => hu
  case waiting =>
    intro m u
    by_cases hm : m = s.kernel.deadChildLock p
    · subst hm
      rw [update_self, hwaits (.mutexWaiting _) trivial, mem_append, mem_singleton]
      exact or_congr Iff.rfl ⟨fun hu => ⟨hu, rfl, hheld⟩, And.left⟩
    · rw [update_of_ne (by simpa using hm), hwaits (.mutexWaiting m) trivial]
      exact ⟨.inl, fun hu => hu.resolve_right fun hlock => hm hlock.2.1⟩
  case free => exact fun _ hm => hm
  case locked => exact .inl hheld
  all_goals rfl

theorem kill_inv (h : Inv s q) (hfree : Free s)
    (hst : killable (s.kernel.status t) = true ∨ s.kernel.status t = .zombie)
    (hself : t = s.kernel.cur → ∀ parent, (disown s.kernel t).parent t = some parent →
      s.kernel.mutexOwner (s.kernel.deadChildLock parent) = none)
    (hkilled : Killed s t) (heq : s.kill t status = some s') : ∃ q', Inv s' q' := by
  obtain ⟨hzero, hkill, hchild⟩ := hkilled
  have hdisowned := disown_inv h hchild
  rcases hst with hst | hzombie
  · obtain ⟨n, L, c, q₁, parent, hslain, hwaits, hnext, hparent, hrest⟩ :=
      kill_cases h.placed hst heq
    have ht := alive_of_killable hst
    have hcur := congrArg gone hfree.1
    have horphans (d : T) : (disown s.kernel t).parent d ≠ some t := by
      change (if s.kernel.parent d = some t then some s.kernel.threadZero
        else s.kernel.parent d) ≠ some t
      split
      · simpa using hzero.symm
      · assumption
    have hp : s.history.exits parent = none := hdisowned.parents t parent hparent
    rcases hrest with ⟨hheld, rfl⟩ | ⟨hunlocked, k', hend, rfl⟩
    · have hne : s.kernel.cur ≠ t := fun hne => hheld (hself hne.symm parent hparent)
      obtain ⟨q', hdoomed⟩ := doomed_asleep h hfree.1 ht hne hslain hwaits hnext hheld
      exact ⟨q', hdisowned.doom hfree.2 ht hdoomed hcur hzero hkill horphans hparent⟩
    have hdoomed := doomed_locked h ht hslain hwaits hnext hp hunlocked
    have hinside := hdisowned.doom hfree.2 ht hdoomed hcur hzero hkill horphans hparent
    have hoff (l : ListName O) : s.kernel.cur ∉ q₁ l := by
      by_cases hne : s.kernel.cur = t
      · exact zombie_unlisted hslain (hne ▸ update_self ..) l
      · exact hslain.cur_off ((update_of_ne hne ..).trans hfree.1)
    have hleft (call : Option (Call T)) (hidle : idle call = true) : ∃ q',
        Inv ⟨k', update s.inside s.kernel.cur call, exitedTo s t parent status⟩ q' := by
      have hpush := push_inv hinside (update_self ..) hidle hoff hend
      have honce : update (update s.inside s.kernel.cur (some (.kill t)))
          s.kernel.cur call = update s.inside s.kernel.cur call := update_idem ..
      exact honce ▸ hpush
    -- the caller leaves the kill, and is in no call or at its own end
    by_cases hne : t = s.kernel.cur
    · rw [if_pos hne]
      subst hne
      exact hleft (some .exited) rfl
    · have hnone := hleft none rfl
      rw [← hfree.2, update_eq_self] at hnone
      rw [if_neg hne]
      exact hnone
  · rw [kill_zombie hzombie heq]
    exact ⟨q, hdisowned⟩

section Reaping

variable {r : T × ℤ}

variable (h : Inv s q)
  (hact : s.kernel.status s.kernel.cur = .active) (hreaping : Reaping s s.kernel.cur)
include h hact hreaping

omit hreaping in
theorem reap_handed (heq : reap s.kernel = some (r, k)) : ∃ dead owner rest q',
    r = (dead, s.kernel.retStatus dead) ∧ Handed s q q' dead owner rest k := by
  obtain ⟨dead, events, k₁, hdead, hrelease, hst₁, rfl, rfl, hevents, hcleared⟩ :=
    reap_cases hact heq
  obtain ⟨hzombie, hlast, -⟩ := h.corpse _ _ hdead
  have hreaped : Placed (reaped s.kernel dead events) q := h.placed.frame rfl
  obtain ⟨n, L, c, st, owner, rest, q', rfl, hplaced, hwaiters, hnobody, hwaits, hkeep, hlive,
    hnext⟩ := mutexRelease_spec hreaped hrelease
  refine ⟨dead, owner, rest, q', rfl, buried_placed hplaced hst₁, hdead, update_self ..,
    fun d hdd hd => (update_of_ne hdd ..).trans (hkeep d hd), fun d hd => ?alive,
    fun d hd => hnext d (zombie_unlisted h.placed hd), rfl, rfl, rfl, rfl, fun p => ?lists,
    fun p => ?owners, fun p => ?queues, hwaiters, hnobody, fun p => ?events⟩
  case alive =>
    have hdd := (ne_of_dead hd (congrArg gone hzombie)).symm
    exact (congrArg gone (update_of_ne hdd ..)).trans (hlive d hd)
  case lists =>
    change update s.kernel.lastDeadChild s.kernel.cur (s.kernel.next dead) p = _
    rw [hlast]
    exact update_apply ..
  case owners =>
    change update s.kernel.mutexOwner _ owner _ = _
    rw [update_apply]
    simp only [h.locks.eq_iff]
  case queues =>
    rw [hwaits (.mutexWaiting _) trivial, update_apply]
    simp only [ListName.mutexWaiting.injEq, h.locks.eq_iff]
  case events =>
    change events p &&& eventDeadChild = _
    split_ifs with hp
    · rw [hp, hcleared hlast, and_cleared]
    · rw [hevents p hp]

/-- The parent takes its dead child off the list, hands the lock on and returns the child. -/
theorem reap_inv (heq : reap s.kernel = some (r, k)) :
    ∃ q', Inv ((System.goInside { s with kernel := k } s.kernel.cur none).report
      s.kernel.cur r) q' := by
  obtain ⟨dead, owner, rest, q', rfl, hk⟩ := reap_handed h hact heq
  obtain ⟨hzombie, -, hexit⟩ := h.corpse _ _ hk.listed
  have hothers (u v : T) (hu : update s.inside s.kernel.cur none u = some (.kill v)) :
      s.inside u = some (.kill v) :=
    (inside_update hu).resolve_left fun hnone => (by cases hnone.2)
  refine ⟨q', {
    placed := hk.placed, locks := hk.deadChildLock.symm ▸ h.locks,
    exited := fun d => (h.exited d).trans ?exited, parents := hk.parent.symm ▸ h.parents,
    zero := hk.threadZero.symm ▸ h.zero, corpse := fun p d => hk.corpse h,
    killing := fun u v hu => hk.killing h (hothers u v hu),
    killer := fun u u' v hu hu' => h.killer u u' v (hothers u v hu) (hothers u' v hu'),
    waiters := fun p u hu => ?waiters, unlocked := fun p hp => ?unlocked,
    noted := fun p => hk.noted h, reported := fun p d status hr => ?reported, once := ?once,
    kept := fun d p status hexit' hp => ?kept }⟩
  case exited =>
    by_cases hdd : d = dead
    · rw [hdd, congrArg gone hzombie]
      exact (congrArg gone hk.buried).symm
    · exact (gone_congr (hk.status d hdd) (hk.alive d)).symm
  case waiters =>
    obtain ⟨v, hv, hp⟩ := h.waiters p u (hk.mem_before (hk.deadChildLock ▸ hu))
    exact ⟨v, kill_stays hreaping hv, (congrFun hk.parent v).trans hp⟩
  case unlocked =>
    intro hnone
    have hlocks := hk.deadChildLock
    exact hlocks.symm ▸ hk.unlocked h hp (hlocks ▸ hnone)
  case reported =>
    rcases mem_append.mp hr with hbefore | hnew
    · obtain ⟨hexit', hburied'⟩ := h.reported p d status hbefore
      refine ⟨hexit', (hk.status d ?_ (congrArg gone hburied')).trans hburied'⟩
      rintro rfl
      cases hburied'.symm.trans hzombie
    · have hnew' : (p, d, status) = (s.kernel.cur, dead, s.kernel.retStatus dead) :=
        mem_singleton.mp hnew
      obtain ⟨rfl, rfl, rfl⟩ := hnew'
      exact ⟨hexit, hk.buried⟩
  case once =>
    change ((s.history.reports ++ [_]).map _).Nodup
    rw [map_append, nodup_append]
    refine ⟨h.once, nodup_singleton _, fun d hd d' hd' => ?_⟩
    -- what was reported before is buried
    obtain rfl := mem_singleton.mp hd'
    obtain ⟨⟨p, c, status⟩, hr, rfl⟩ := mem_map.mp hd
    rintro rfl
    cases (h.reported _ _ _ hr).2.symm.trans hzombie
  case kept =>
    rcases h.kept d p status hexit' hp with hr | hlist | ⟨u, hu⟩
    · exact .inl (mem_append_left _ hr)
    · by_cases hcur : p = s.kernel.cur
      · subst hcur
        cases hlist.symm.trans hk.listed
        cases hexit'.symm.trans hexit
        exact .inl (mem_append_right _ (mem_singleton_self _))
      · exact .inr (.inl ((hk.lists p).trans ((if_neg hcur).trans hlist)))
    · exact .inr (.inr ⟨u, kill_stays hreaping hu⟩)

theorem reap_returns : ∃ dead status k, s.kernel.lastDeadChild s.kernel.cur = some dead ∧
      s.history.exits dead = some (s.kernel.cur, status) ∧
      reap s.kernel = some ((dead, status), k) := by
  have hlives := h.alive (congrArg gone hact)
  obtain ⟨dead, hdead⟩ := ne_none_iff_exists'.mp ((h.noted _ hlives).mpr (.inr hreaping))
  obtain ⟨hzombie, hlast, hexit⟩ := h.corpse _ _ hdead
  let events := update s.kernel.eventState s.kernel.cur
    (s.kernel.eventState s.kernel.cur &&& ~~~eventDeadChild)
  have hreaped : Placed (reaped s.kernel dead events) q := h.placed.frame rfl
  obtain ⟨k, hrelease⟩ := mutexRelease_returns hreaped (s.kernel.deadChildLock s.kernel.cur)
  obtain ⟨n, L, c, st, owner, rest, q', hfields, -, -, -, -, hkeep, -⟩ :=
    mutexRelease_spec hreaped hrelease
  have hst : k.status dead = .zombie := by
    rw [hfields]
    exact (hkeep dead (congrArg gone hzombie)).trans hzombie
  have hret : k.retStatus dead = s.kernel.retStatus dead := by
    rw [hfields]
    rfl
  refine ⟨dead, s.kernel.retStatus dead, (k.setStatus dead .dead).setStatus dead .buried, hdead,
    hexit, ?_⟩
  rw [reap, hdead, ← hret]
  dsimp only [bind, bind_some]
  rw [if_neg (not_not_intro hlast)]
  exact (congrArg (bind · _) hrelease).trans (if_neg (not_not_intro hst))

end Reaping

variable {call : Call T} {op : Op T O}

theorem resume_inv (h : Inv s q) (hact : s.kernel.status s.kernel.cur = .active)
    (hcall : s.inside s.kernel.cur = some call) (heq : s.resume call = some s') :
    ∃ q', Inv s' q' := by
  have hawake : Inv { s with kernel := (threadsIntSleepEnd s.kernel).2 } q :=
    h.quiet (h.placed.frame rfl) { waiting := fun _ => rfl }
  cases call with
  | kill victim =>
    obtain ⟨k, hend, rfl⟩ := map_eq_some_iff.mp heq
    have hidle :
        idle (if victim = s.kernel.cur then some (Call.exited (T := T)) else none) = true := by
      split <;> rfl
    have hpush := push_inv hawake hcall hidle (fun l => h.placed.cur_off hact) hend
    exact hpush
  | waitTID =>
    cases heq
    exact ⟨q, fired_inv hawake (congrArg idle hcall)⟩
  | reaping fired =>
    rw [System.resume] at heq
    split at heq
    · rename_i hfired
      obtain ⟨⟨r, k⟩, hreap, rfl⟩ := map_eq_some_iff.mp heq
      exact reap_inv h hact ⟨fired, hcall, hfired⟩ hreap
    · rename_i hfired
      cases heq
      refine ⟨q, h.goInside ?_ rfl⟩
      rw [hcall]
      exact decide_eq_true (not_not.mp hfired)
  | exited => cases heq

theorem step_inv (h : Inv s q) (hop : Undisturbed s op) (heq : step s op = some s') :
    ∃ q', Inv s' q' := by
  obtain ⟨horderly, hextra⟩ := hop
  cases op with
  | addActive t =>
    obtain ⟨k, hk, rfl⟩ := map_eq_some_iff.mp heq
    exact addActive_quiet h horderly.1 (fun l hl => horderly.2 l ((on_iff h.placed).mpr hl)) hk
  | takeFirst l =>
    obtain ⟨t, ht, rfl⟩ := map_eq_some_iff.mp heq
    exact takeFirst_quiet h horderly hextra ht
  | intSleep status ptr num list =>
    obtain ⟨hfree, heq⟩ := ite_none_right_eq_some.mp heq
    cases heq
    exact intSleep_quiet h hfree.1 ptr num horderly.1 horderly.2 hextra
  | sleep =>
    obtain ⟨hfree, heq⟩ := ite_none_right_eq_some.mp heq
    obtain ⟨k, hk, rfl⟩ := map_eq_some_iff.mp heq
    exact sleep_quiet h hfree.1 hk
  | wake t =>
    obtain ⟨⟨r, k⟩, hk, rfl⟩ := map_eq_some_iff.mp heq
    exact wake_quiet h horderly hk
  | kill t status =>
    obtain ⟨hfree, heq⟩ := ite_none_right_eq_some.mp heq
    exact kill_inv h hfree horderly.1 horderly.2 hextra heq
  | waitTID =>
    obtain ⟨hfree, heq⟩ := ite_none_right_eq_some.mp heq
    cases heq
    exact waitTID_inv h hfree
  | resume =>
    obtain ⟨hact, heq⟩ := ite_none_right_eq_some.mp heq
    obtain ⟨call, hcall, heq⟩ := bind_eq_some_iff.mp heq
    exact resume_inv h hact hcall heq
  | reschedule noTaskSwitch =>
    obtain ⟨k, hk, rfl⟩ := map_eq_some_iff.mp heq
    exact reschedule_quiet h hk

theorem kill_noneSelf (h : Inv s q) (hself : NoneSelf s)
    (horderly : Orderly s (.kill t status)) (heq : s.kill t status = some s') : NoneSelf s' := by
  rcases horderly.1 with hst | hzombie
  · obtain ⟨n, L, c, q₁, parent, -, -, -, hparent, hrest⟩ := kill_cases h.placed hst heq
    rcases hrest with ⟨hheld, rfl⟩ | ⟨-, k', -, rfl⟩
    · refine hself.goInside fun hcall => ?_
      obtain rfl := Call.kill.inj (some.inj hcall)
      exact hheld (horderly.2 rfl parent hparent)
    · by_cases hcur : t = s.kernel.cur
      · rw [if_pos hcur]
        exact hself.goInside (by simp)
      · rw [if_neg hcur]
        exact hself
  · rw [kill_zombie hzombie heq]
    exact hself

theorem resume_noneSelf (hself : NoneSelf s) (heq : s.resume call = some s') : NoneSelf s' := by
  cases call with
  | kill victim =>
    obtain ⟨k, -, rfl⟩ := map_eq_some_iff.mp heq
    refine hself.goInside ?_
    split <;> simp
  | waitTID =>
    cases heq
    exact hself.goInside (by simp)
  | reaping fired =>
    rw [System.resume] at heq
    split at heq
    · obtain ⟨⟨r, k⟩, -, rfl⟩ := map_eq_some_iff.mp heq
      exact hself.goInside (by simp)
    · cases heq
      exact hself.goInside (by simp)
  | exited => cases heq

theorem step_noneSelf (h : Inv s q) (hself : NoneSelf s) (horderly : Orderly s op)
    (heq : step s op = some s') : NoneSelf s' := by
  cases op with
  | kill t status =>
    obtain ⟨-, heq⟩ := ite_none_right_eq_some.mp heq
    exact kill_noneSelf h hself horderly heq
  | waitTID =>
    obtain ⟨-, heq⟩ := ite_none_right_eq_some.mp heq
    cases heq
    rw [System.waitTID]
    split <;> exact hself.goInside (by simp)
  | resume =>
    obtain ⟨-, heq⟩ := ite_none_right_eq_some.mp heq
    obtain ⟨call, -, heq⟩ := bind_eq_some_iff.mp heq
    exact resume_noneSelf hself heq
  | intSleep status ptr num list =>
    obtain ⟨-, heq⟩ := ite_none_right_eq_some.mp heq
    cases heq
    exact hself
  | sleep =>
    obtain ⟨-, heq⟩ := ite_none_right_eq_some.mp heq
    obtain ⟨k, -, rfl⟩ := map_eq_some_iff.mp heq
    exact hself
  | _ =>
    obtain ⟨k, -, rfl⟩ := map_eq_some_iff.mp heq
    exact hself

/-- The dead that wait for their parent are zombies on no list; each report is of a child with its
exit status, and none comes twice; a child that has exited to a live parent is reported, or on its
list with the parent told, or its killer is on the way to the parent's lock. -/
structure Reaped (s : System T O) : Prop where
  dead : ∀ p, ∃ xs, Linked s.kernel.next (s.kernel.lastDeadChild p) xs ∧
    ∀ c ∈ xs, s.kernel.status c = .zombie ∧ ∀ l, ¬ On s.kernel l c
  reported : ∀ p c status, (p, c, status) ∈ s.history.reports → s.history.exits c = some (p, status)
  once : (s.history.reports.map fun r => r.2.1).Nodup
  kept : ∀ c p status, s.history.exits c = some (p, status) → s.history.exits p = none →
    (p, c, status) ∈ s.history.reports ∨
    (s.kernel.lastDeadChild p = some c ∧ (Noted s.kernel p ∨ Reaping s p)) ∨
    ∃ u, s.inside u = some (.kill c) ∧ gone (s.kernel.status u) = false ∧
      (On s.kernel (.mutexWaiting (s.kernel.deadChildLock p)) u ∨
        s.kernel.mutexOwner (s.kernel.deadChildLock p) = some u)
  returned : s.kernel.status s.kernel.cur = .active → Reaping s s.kernel.cur →
    ∃ c status s', s.kernel.lastDeadChild s.kernel.cur = some c ∧
      s.history.exits c = some (s.kernel.cur, status) ∧ step s .resume = some s' ∧
      s'.history.reports = s.history.reports ++ [(s.kernel.cur, c, status)]

theorem Inv.reaped (h : Inv s q) (hself : NoneSelf s) : Reaped s := by
  constructor
  case dead =>
    intro p
    cases hdead : s.kernel.lastDeadChild p with
    | none => exact ⟨[], rfl, fun c hc => (by cases hc)⟩
    | some d =>
      obtain ⟨hzombie, hlast, -⟩ := h.corpse p d hdead
      refine ⟨[d], ⟨rfl, hlast⟩, fun c hc => ?_⟩
      obtain rfl := mem_singleton.mp hc
      exact ⟨hzombie, fun l hon => zombie_unlisted h.placed hzombie l ((on_iff h.placed).mp hon)⟩
  case reported => exact fun p c status hr => (h.reported p c status hr).1
  case once => exact h.once
  case kept =>
    intro c p status hexit hp
    rcases h.kept c p status hexit hp with hr | hlist | ⟨u, hu⟩
    · exact .inl hr
    · refine .inr (.inl ⟨hlist, (h.noted p hp).mp ?_⟩)
      rw [hlist]
      simp
    obtain ⟨-, hkiller, -, p', hp', hexit', hlock⟩ := h.killing u c hu
    cases hexit.symm.trans hexit'
    have huc : u ≠ c := by
      rintro rfl
      exact hself u hu
    refine .inr (.inr ⟨u, hu, hkiller huc, hlock.imp ?_ And.left⟩)
    exact (on_iff h.placed).mpr
  case returned =>
    intro hact hreaping
    obtain ⟨dead, status, k, hdead, hexit, hreap⟩ := reap_returns h hact hreaping
    obtain ⟨fired, hcall, hfired⟩ := hreaping
    have hstep : step s .resume =
        some ((System.goInside { s with kernel := k } s.kernel.cur none).report s.kernel.cur
          (dead, status)) := by
      rw [step, if_pos hact, hcall, bind_some, System.resume, if_pos hfired, hreap]
      rfl
    exact ⟨dead, status, _, hdead, hexit, hstep, rfl⟩

/-- No thread has exited, and nobody uses the locks of the parents. -/
structure Start (s : System T O) (q : ListName O → List T) : Prop where
  placed : Placed s.kernel q
  locks : Injective s.kernel.deadChildLock
  alive : ∀ t, gone (s.kernel.status t) = false
  inside : ∀ t, s.inside t = none
  exits : ∀ t, s.history.exits t = none
  reports : s.history.reports = []
  lists : ∀ t, s.kernel.lastDeadChild t = none
  owners : ∀ t, s.kernel.mutexOwner (s.kernel.deadChildLock t) = none
  waiters : ∀ t, q (.mutexWaiting (s.kernel.deadChildLock t)) = []
  events : ∀ t, ¬ Noted s.kernel t

omit [DecidableEq T] [DecidableEq O] in
theorem Start.inv (h : Start s q) : Inv s q := by
  have hkill (u : T) (call : Call T) : s.inside u ≠ some call := by
    rw [h.inside u]
    simp
  constructor
  case placed => exact h.placed
  case locks => exact h.locks
  case exited =>
    intro c
    rw [h.exits, h.alive]
    rfl
  case parents => exact fun c p _ => h.exits p
  case zero => exact h.exits _
  case corpse =>
    intro p d hd
    cases (h.lists p).symm.trans hd
  case killing => exact fun u v hu => absurd hu (hkill u _)
  case killer => exact fun u u' v hu => absurd hu (hkill u _)
  case waiters =>
    intro p u hu
    rw [h.waiters p] at hu
    cases hu
  case unlocked => exact fun p _ _ => ⟨h.lists p, h.waiters p⟩
  case noted =>
    intro p _
    refine iff_of_false (not_not_intro (h.lists p)) ?_
    rintro (hnoted | ⟨fired, hfired, -⟩)
    · exact h.events p hnoted
    · exact hkill p _ hfired
  case reported =>
    intro p c status hr
    rw [h.reports] at hr
    cases hr
  case once =>
    rw [h.reports]
    exact nodup_nil
  case kept =>
    intro c p status hexit
    cases (h.exits c).symm.trans hexit

/-- In every state of a run in which no kill runs into another one, the children are reaped. -/
theorem children_reaped {ops : List (Op T O)} (hstart : Start s q)
    (hundisturbed : Along step Undisturbed s ops) (hrun : run step s ops = some s') :
    Reaped s' := by
  have hinv : (∃ q, Inv s q) ∧ NoneSelf s := by
    refine ⟨⟨q, hstart.inv⟩, fun u => ?_⟩
    rw [hstart.inside u]
    simp
  have hstep (s : System T O) (op : Op T O) (t : System T O)
      (h : (∃ q, Inv s q) ∧ NoneSelf s) (hop : Undisturbed s op) (heq : step s op = some t) :
      (∃ q, Inv t q) ∧ NoneSelf t := by
    obtain ⟨⟨q, hq⟩, hself⟩ := h
    exact ⟨step_inv hq hop heq, step_noneSelf hq hself hop.1 heq⟩
  obtain ⟨⟨q', hq'⟩, hself⟩ := run_invariant hstep hinv hundisturbed hrun
  exact hq'.reaped hself

instance (k : Kernel T O) (t : T) : Decidable (Noted k t) := inferInstanceAs (Decidable (_ ≠ _))

instance (s : System T O) (l : ListName O) : Decidable (OwnLock s l) :=
  inferInstanceAs (Decidable (∃ _, _))

instance (s : System T O) (t : T) : Decidable (Killed s t) :=
  decidable_of_iff (t ≠ s.kernel.threadZero ∧ (∀ v, s.inside t ≠ some (.kill v)) ∧
      ∀ v, (∃ u, s.inside u = some (.kill v)) → s.kernel.parent v ≠ some t)
    ⟨fun ⟨hzero, hkill, hchild⟩ => ⟨hzero, hkill, fun u v hu => hchild v ⟨u, hu⟩⟩,
      fun ⟨hzero, hkill, hchild⟩ => ⟨hzero, hkill, fun v ⟨u, hu⟩ => hchild u v hu⟩⟩

instance [Fintype O] (s : System T O) : DecidablePred (Undisturbed s) := fun op => by
  refine op.casesOn ?_ ?_ ?_ ?_ ?_ ?_ ?_ ?_ ?_ <;> intros <;>
    dsimp only [Undisturbed] <;> infer_instance

def sampleFamily : System (Fin 4) (Fin 4) :=
  ⟨ready id 0 [1, 2, 3], fun _ => none, ⟨fun _ => none, []⟩⟩

def quietRun : List (Op (Fin 4) (Fin 4)) :=
  [.reschedule false, .kill 1 5, .reschedule false, .reschedule false, .reschedule false, .waitTID,
    .resume, .kill 2 7, .waitTID, .resume]

/-- Threads 1 and 2 exit before thread 0 reaps the first. -/
def overlappingRun : List (Op (Fin 4) (Fin 4)) :=
  [.reschedule false, .kill 1 5, .reschedule false, .kill 2 7, .reschedule false, .reschedule false,
    .waitTID, .resume, .reschedule false, .reschedule false, .resume]

theorem sampleFamily_start : Start sampleFamily (readyLists [1, 2, 3]) := by
  constructor
  case placed => exact ready_placed id (by decide) (by decide)
  case locks => exact injective_id
  all_goals decide

theorem sample_children_reaped : ∃ s, run step sampleFamily quietRun = some s ∧ Reaped s ∧
    s.history.reports = [(0, 1, 5), (0, 2, 7)] := by
  have hreached : (run step sampleFamily quietRun).map (fun s => s.history.reports) =
      some [(0, 1, 5), (0, 2, 7)] := by decide +kernel
  obtain ⟨s, hs, hreports⟩ := map_eq_some_iff.mp hreached
  have hundisturbed : Along step Undisturbed sampleFamily quietRun := by decide +kernel
  exact ⟨s, hs, children_reaped sampleFamily_start hundisturbed hs, hreports⟩

/-- The second child sleeps for the lock as a zombie, and wakes as an active thread on its parent's
list. -/
theorem overlapping_exits_revive :
    (run step sampleFamily overlappingRun).map (fun s => (s.history.exits 2,
      s.kernel.lastDeadChild 0, s.kernel.status 2, s.kernel.retStatus 2)) =
        some (some (0, 7), some 2, .active, 0) := by
  decide +kernel

end ChildReaping
