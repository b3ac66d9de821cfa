import Acess2.GuardedRuns
import Acess2.VfsSelectSteps

/-! No wake-up of a selecting thread is lost: once it has tested a flag and found nothing,
whoever sets the flag sees it on the list, and its event is there before or ends the sleep. -/
namespace VfsSelectWakeups

open Function GuardedRuns List LocksModel Option ThreadsModel ThreadsQueues VfsSelect VfsSelectSteps
  Nat BitVec

variable {T O N : Type} [DecidableEq T]

def Pending (s : State T O N) : Prop := s.kernel.eventState s.me &&& eventVfs ≠ 0

def Marking (s : State T O N) (node : N) (type : SelType) : Prop :=
  ∃ id m, s.marks id = some m ∧ m.node = node ∧ m.type = type

def Noticed (s : State T O N) (node : N) (type : SelType) : Prop :=
  s.call.stage = .testing node type ∨ s.call.flagged = true ∨ Pending s ∨ Marking s node type

structure Sleeping (s : State T O N) : Prop where
  status : s.kernel.status s.me = .eventSleep
  stage : s.call.stage = .asleep
  quiet : ¬ Pending s
  waits : BitVec.ofInt 32 (s.kernel.retStatus s.me) &&& eventVfs ≠ 0

variable [DecidableEq N]

structure Inv (s : State T O N) : Prop where
  awake : s.kernel.status s.me = .active ∨ Sleeping s
  unflagged : Settled s.call.stage → s.call.flagged = false
  gone : s.call.stage = .clearing ∨ s.call.stage = .outside → s.call.kept = []
  held : ∀ node type, listens s.nodes s.me node type ≤ s.call.kept.count (node, type)
  noticed : Listening s.call.stage → ∀ node type, 0 < listens s.nodes s.me node type →
    s.nodes.flag node type = type.wanted → Noticed s node type

structure Start (s : State T O N) : Prop where
  tailed : Tailed s.kernel
  awake : s.kernel.status s.me = .active
  outside : s.call.stage = .outside
  kept : s.call.kept = []
  unlisted : ∀ node type, listens s.nodes s.me node type = 0

theorem Start.inv {s : State T O N} (h : Start s) : Inv s where
  awake := .inl h.awake
  unflagged hsettled := by
    rw [h.outside] at hsettled
    exact hsettled.elim
  gone _ := h.kept
  held node type := by
    rw [h.unlisted]
    exact zero_le _
  noticed hlistening := by
    rw [h.outside] at hlistening
    exact hlistening.elim

variable {s : State T O N}

theorem Inv.not_semaphore (h : Inv s) : s.kernel.status s.me ≠ .semaphoreSleep := by
  rcases h.awake with hact | hsleep
  · rw [hact]
    exact ThreadStatus.noConfusion
  · rw [hsleep.status]
    exact ThreadStatus.noConfusion

theorem Inv.around (h : Inv s) (k : Kernel T O) (marks : ℕ → Option (Mark N))
    (hawake : k.status s.me = .active ∨ Sleeping { s with kernel := k, marks := marks })
    (hpending : Pending s → k.eventState s.me &&& eventVfs ≠ 0)
    (hmarks : ∀ node type, 0 < listens s.nodes s.me node type →
      s.nodes.flag node type = type.wanted → Marking s node type →
      k.eventState s.me &&& eventVfs ≠ 0 ∨
        Marking { s with kernel := k, marks := marks } node type) :
    Inv { s with kernel := k, marks := marks } := by
  refine { h with awake := hawake, noticed := fun hlistening node type hlist hflag => ?_ }
  rcases h.noticed hlistening node type hlist hflag with htest | hseen | hpend | hmark
  · exact .inl htest
  · exact .inr (.inl hseen)
  · exact .inr (.inr (.inl (hpending hpend)))
  · exact .inr (.inr (hmarks node type hlist hflag hmark))

variable {k : Kernel T O} {mask : BitVec 32} {id : ℕ} {m : Mark N} {node : N} {type : SelType}
  {list : SelectList T}

theorem Inv.awake_posted (h : Inv s) {marks : ℕ → Option (Mark N)}
    (hview : view k s.me = posted mask (view s.kernel s.me)) :
    k.status s.me = .active ∨ Sleeping { s with kernel := k, marks := marks } := by
  obtain ⟨hstatus, hrest⟩ := Prod.mk.inj hview
  obtain ⟨hevents, hret⟩ := Prod.mk.inj hrest
  rw [hstatus]
  rcases h.awake with hact | hsleep
  · refine .inl (if_neg ?_ |>.trans hact)
    rintro ⟨hst, -⟩
    cases hact.symm.trans hst
  by_cases hwake : BitVec.ofInt 32 (s.kernel.retStatus s.me) &&& mask ≠ 0
  · exact .inl (if_pos ⟨hsleep.status, hwake⟩)
  right
  constructor
  case status =>
    change k.status s.me = _
    rw [hstatus]
    exact (if_neg fun hp => hwake hp.2).trans hsleep.status
  case stage => exact hsleep.stage
  case quiet =>
    -- the bits posted are none of those waited for, which the VFS event is
    have hwaits := (vfs_bit _).mp hsleep.waits
    have hquiet := mt (vfs_bit _).mpr hsleep.quiet
    have hnot : ((BitVec.ofInt 32 (s.kernel.retStatus s.me)) &&& mask).getLsbD 0 = false := by
      rw [not_not.mp hwake]
      rfl
    rw [getLsbD_and, hwaits, Bool.true_and] at hnot
    change ¬ k.eventState s.me &&& eventVfs ≠ 0
    rw [vfs_bit, hevents, getLsbD_or, hnot, Bool.or_false]
    exact hquiet
  case waits =>
    change BitVec.ofInt 32 (k.retStatus s.me) &&& eventVfs ≠ 0
    rw [hret]
    exact hsleep.waits

omit [DecidableEq T] [DecidableEq N] in
theorem pending_posted (hview : view k s.me = posted mask (view s.kernel s.me)) (h : Pending s) :
    k.eventState s.me &&& eventVfs ≠ 0 := by
  have hevents := congrArg (fun v => v.2.1) hview
  change k.eventState s.me = s.kernel.eventState s.me ||| mask at hevents
  rw [vfs_bit, hevents, getLsbD_or, (vfs_bit _).mp h, Bool.true_or]

omit [DecidableEq T] [DecidableEq N] in
theorem Sleeping.same {marks : ℕ → Option (Mark N)} (h : Sleeping s)
    (hview : view k s.me = view s.kernel s.me) :
    Sleeping { s with kernel := k, marks := marks } := by
  obtain ⟨hstatus, hevents, hret⟩ := view_eq hview
  constructor
  case status => exact hstatus.trans h.status
  case stage => exact h.stage
  case quiet =>
    change ¬ k.eventState s.me &&& eventVfs ≠ 0
    rw [hevents]
    exact h.quiet
  case waits =>
    change BitVec.ofInt 32 (k.retStatus s.me) &&& eventVfs ≠ 0
    rw [hret]
    exact h.waits

theorem Inv.elsewhere (h : Inv s) (hview : view k s.me = view s.kernel s.me) :
    Inv { s with kernel := k } := by
  have hevents : k.eventState s.me = s.kernel.eventState s.me := congrArg (fun v => v.2.1) hview
  have hstatus : k.status s.me = s.kernel.status s.me := congrArg (fun v => v.1) hview
  apply h.around k s.marks
  · rw [hstatus]
    exact h.awake.imp_right fun hsleep => hsleep.same hview
  · intro hpend
    rw [hevents]
    exact hpend
  · exact fun node type _ _ hmark => .inr hmark

omit [DecidableEq T] [DecidableEq N] in
theorem marking_update (h : Marking s node type)
    (hid : s.marks id = some m) (k : Kernel T O) (m' : Option (Mark N)) :
    (m.node = node ∧ m.type = type) ∨
      Marking { s with kernel := k, marks := update s.marks id m' } node type := by
  obtain ⟨id₀, m₀, hid₀, hnode, htype⟩ := h
  by_cases heq : id₀ = id
  · subst heq
    cases hid.symm.trans hid₀
    exact .inl ⟨hnode, htype⟩
  · exact .inr ⟨id₀, m₀, (update_of_ne heq _ _).trans hid₀, hnode, htype⟩

theorem Inv.advance (h : Inv s) (hid : s.marks id = some m)
    (stage : MarkStage) : Inv (s.setMark id (some { m with stage := stage })) := by
  apply h.around s.kernel _
  · exact h.awake.imp_right fun hsleep => hsleep.same rfl
  · exact fun hpend => hpend
  · intro node type _ _ hmark
    right
    rcases marking_update hmark hid s.kernel (some { m with stage := stage }) with hown | hother
    · exact ⟨id, { m with stage := stage }, update_self _ _ _, hown⟩
    · exact hother

theorem Inv.finish (h : Inv s) (hid : s.marks id = some m)
    (hdone : s.nodes.flag m.node m.type = m.type.wanted →
      listens s.nodes s.me m.node m.type = 0) : Inv (s.setMark id none) := by
  apply h.around s.kernel _
  · exact h.awake.imp_right fun hsleep => hsleep.same rfl
  · exact fun hpend => hpend
  · intro node type hlist hflag hmark
    right
    rcases marking_update hmark hid s.kernel none with ⟨rfl, rfl⟩ | hother
    · exact absurd (hdone hflag) (Nat.pos_iff_ne_zero.mp hlist)
    · exact hother

omit [DecidableEq N] in
theorem listens_pos_iff (hlist : s.nodes.list node type = some list) :
    0 < listens s.nodes s.me node type ↔ some s.me ∈ list.threads := by
  rw [listens, hlist]
  exact count_pos_iff

section

variable (h : Inv s)
include h

theorem mark_inv (hid : s.marks id = none) (node : N) (type : SelType) (value : Bool) :
    Inv (State.setMark { s with nodes := s.nodes.setFlag node type value } id
      (some ⟨node, type, .testing⟩)) := by
  refine { h with
    awake := h.awake.imp_right fun hsleep => { hsleep with }
    noticed := fun hlistening node' type' hlist hflag => ?_ }
  by_cases hown : node = node' ∧ type = type'
  · exact .inr (.inr (.inr ⟨id, ⟨node, type, .testing⟩, update_self _ _ _, hown⟩))
  have hsame : (s.nodes.setFlag node type value).flag node' type' = s.nodes.flag node' type' :=
    setFlag_other hown
  rcases h.noticed hlistening node' type' hlist (hsame ▸ hflag) with
    htest | hseen | hpend | ⟨id₀, m₀, hid₀, hm₀⟩
  · exact .inl htest
  · exact .inr (.inl hseen)
  · exact .inr (.inr (.inl hpend))
  · have hne : id₀ ≠ id := by
      rintro rfl
      cases hid.symm.trans hid₀
    exact .inr (.inr (.inr ⟨id₀, m₀, (update_of_ne hne _ _).trans hid₀, hm₀⟩))

section

variable (hact : s.kernel.status s.me = .active)
include hact

theorem Inv.goOn {nodes : Nodes T N} {c : Progress N} (hfrom : Listening s.call.stage)
    (htesting : ∀ node type, s.call.stage ≠ .testing node type)
    (hlistens : listens nodes s.me = listens s.nodes s.me) (hflags : nodes.flag = s.nodes.flag)
    (hflagged : s.call.flagged = true → c.flagged = true)
    (hsettled : Settled c.stage → c.flagged = false) (hkept : c.kept = s.call.kept)
    (hin : ¬ (c.stage = .clearing ∨ c.stage = .outside)) :
    Inv { s with nodes := nodes, call := c } where
  awake := .inl hact
  unflagged := hsettled
  gone hout := absurd hout hin
  held node type := by
    change listens nodes s.me node type ≤ c.kept.count (node, type)
    rw [hlistens, hkept]
    exact h.held node type
  noticed _ node type hlist hflag := by
    change 0 < listens nodes s.me node type at hlist
    change nodes.flag node type = type.wanted at hflag
    rw [hlistens] at hlist
    rw [hflags] at hflag
    rcases h.noticed hfrom node type hlist hflag with htest | hseen | hnotice
    · exact absurd htest (htesting node type)
    · exact .inr (.inl (hflagged hseen))
    · exact .inr (.inr hnotice)

omit hact in
theorem Inv.wakes (hact : k.status s.me = .active) :
    Inv (State.goto { s with kernel := k } .removing) where
  awake := .inl hact
  unflagged hsettled := hsettled.elim
  gone hout := hout.elim nofun nofun
  held := h.held
  noticed hlistening := hlistening.elim

theorem adding_inv (hstage : s.call.stage = .adding node type) (malloc : Bool) : Inv { s with
      nodes := (s.nodes.addThread node type s.me malloc).2
      call := { s.call.keep node type (s.nodes.addThread node type s.me malloc).1 with
        stage := .testing node type } } where
  awake := .inl hact
  unflagged hsettled := hsettled.elim
  gone hout := hout.elim nofun nofun
  held node' type' := by
    have hheld := h.held node' type'
    have hfails := addThread_fails s.nodes node type s.me malloc
    have hkeep := count_keep s.call node type
      (s.nodes.addThread node type s.me malloc).1 node' type'
    change listens (s.nodes.addThread node type s.me malloc).2 s.me node' type' ≤ _
    rw [listens_addThread]
    refine le_trans ?_ hkeep
    split_ifs with hadd hkept hkept
    · omega
    · -- a place was taken, so the listen is remembered
      exact absurd ⟨hadd.1, hadd.2.1, fun hfail => hfails.mp hfail hadd.2.2.2⟩ hkept
    · omega
    · omega
  noticed _ node' type' hlist hflag := by
    by_cases hown : node' = node ∧ type' = type
    · obtain ⟨rfl, rfl⟩ := hown
      exact .inl rfl
    change 0 < listens (s.nodes.addThread node type s.me malloc).2 s.me node' type' at hlist
    rw [listens_addThread, if_neg fun hadd => hown ⟨hadd.1, hadd.2.1⟩] at hlist
    rcases h.noticed (hstage ▸ trivial) node' type' hlist hflag with htest | hseen | hnotice
    · cases hstage.symm.trans htest
    · exact .inr (.inl (by rw [keep_flagged]; exact hseen))
    · exact .inr (.inr hnotice)

theorem testing_inv
    (hstage : s.call.stage = .testing node type) : Inv { s with call := { s.call with
      stage := .listing
      flagged := s.call.flagged || s.nodes.flag node type == type.wanted } } where
  awake := .inl hact
  unflagged hsettled := hsettled.elim
  gone hout := hout.elim nofun nofun
  held := h.held
  noticed _ node' type' hlist hflag := by
    rcases h.noticed (hstage ▸ trivial) node' type' hlist hflag with htest | hseen | hnotice
    · -- the flag just tested is the wanted one
      obtain ⟨rfl, rfl⟩ := Stage.testing.inj (hstage.symm.trans htest)
      refine .inr (.inl ?_)
      change (s.call.flagged || _) = true
      rw [beq_iff_eq.mpr hflag, Bool.or_true]
    · refine .inr (.inl ?_)
      change (s.call.flagged || _) = true
      rw [hseen, Bool.true_or]
    · exact .inr (.inr hnotice)

omit hact in
theorem timing_inv (hrun : Running s) (hstage : s.call.stage = .timing) :
    Inv (State.goto { s with kernel := threadsClearEvent s.kernel eventTimer } .waiting) where
  awake := .inl hrun.2
  unflagged _ := h.unflagged (hstage ▸ trivial)
  gone hout := hout.elim nofun nofun
  held := h.held
  noticed _ node type hlist hflag := by
    rcases h.noticed (hstage ▸ trivial) node type hlist hflag with htest | hseen | hpend | hmark
    · cases hstage.symm.trans htest
    · exact .inr (.inl hseen)
    · refine .inr (.inr (.inl ?_))
      have hevents : (threadsClearEvent s.kernel eventTimer).eventState s.me =
          s.kernel.eventState s.me &&& ~~~eventTimer := by
        rw [threadsClearEvent, hrun.1]
        exact update_self _ _ _
      change (threadsClearEvent s.kernel eventTimer).eventState s.me &&& eventVfs ≠ 0
      rw [hevents, vfs_bit, getLsbD_and, (vfs_bit _).mp hpend]
      rfl
    · exact .inr (.inr (.inr hmark))

theorem removing_inv (hstage : s.call.stage = .removing) {kept : List (N × SelType)}
    (hkept : s.call.kept = (node, type) :: kept) :
    Inv { s with
      nodes := s.nodes.remThread node type s.me
      call := { s.call with kept := kept } } where
  awake := .inl hact
  unflagged hsettled := by
    change Settled s.call.stage at hsettled
    rw [hstage] at hsettled
    exact hsettled.elim
  gone hout := by
    change s.call.stage = _ ∨ s.call.stage = _ at hout
    rw [hstage] at hout
    exact hout.elim nofun nofun
  held node' type' := by
    have hheld := h.held node' type'
    rw [hkept, count_cons] at hheld
    change listens (s.nodes.remThread node type s.me) s.me node' type' ≤ kept.count (node', type')
    rw [listens_remThread]
    split_ifs with hown
    · obtain ⟨rfl, rfl, -⟩ := hown
      rw [if_pos (beq_self_eq_true _)] at hheld
      omega
    · rw [if_neg] at hheld
      · exact hheld
      · rintro heq
        obtain ⟨rfl, rfl⟩ := Prod.mk.inj (eq_of_beq heq)
        exact hown ⟨rfl, rfl, rfl⟩
  noticed hlistening := by
    change Listening s.call.stage at hlistening
    rw [hstage] at hlistening
    exact hlistening.elim

end

theorem leave_inv (hkept : s.call.kept = []) {stage : Stage N}
    (hact : k.status s.me = .active) (hstage : stage = .clearing ∨ stage = .outside) :
    Inv (State.goto { s with kernel := k } stage) where
  awake := .inl hact
  unflagged hsettled := by
    rcases hstage with rfl | rfl <;> exact hsettled.elim
  gone _ := hkept
  held := h.held
  noticed hlistening := by
    rcases hstage with rfl | rfl <;> exact hlistening.elim

/-- The caller falls asleep: nothing it waits for is pending. -/
theorem sleep_inv (hstage : s.call.stage = .waiting)
    (hquiet : s.kernel.eventState s.me &&& s.call.kind.mask s.call.timeout = 0)
    (hview : view k s.me = (.eventSleep, s.kernel.eventState s.me,
      (s.call.kind.mask s.call.timeout).toInt)) :
    Inv (State.goto { s with kernel := k } .asleep) := by
  have hmask := mask_vfs s.call.kind s.call.timeout
  have hbit : (s.kernel.eventState s.me).getLsbD 0 = false := by
    have hzero :
        (s.kernel.eventState s.me &&& s.call.kind.mask s.call.timeout).getLsbD 0 = false := by
      rw [hquiet]
      rfl
    rw [getLsbD_and, hmask, Bool.and_true] at hzero
    exact hzero
  obtain ⟨hstatus, hevents, hret⟩ := view_eq hview
  constructor
  case awake =>
    right
    constructor
    case status => exact hstatus
    case stage => rfl
    case quiet =>
      change ¬ k.eventState s.me &&& eventVfs ≠ 0
      rw [hevents, vfs_bit, hbit]
      exact Bool.false_ne_true
    case waits =>
      change BitVec.ofInt 32 (k.retStatus s.me) &&& eventVfs ≠ 0
      rw [hret, ofInt_toInt, vfs_bit]
      exact hmask
  case unflagged => exact fun _ => h.unflagged (hstage ▸ trivial)
  case gone => exact fun hout => hout.elim nofun nofun
  case held => exact h.held
  case noticed =>
    intro _ node type hlist hflag
    rcases h.noticed (hstage ▸ trivial) node type hlist hflag with htest | hseen | hpend | hmark
    · cases hstage.symm.trans htest
    · exact .inr (.inl hseen)
    · rw [Pending, vfs_bit, hbit] at hpend
      cases hpend
    · exact .inr (.inr (.inr hmark))

end

variable {s' : State T O N}

theorem begin_inv (h : Inv s) {kind : Kind} {timeout : Timeout} {items : List (Item N)}
    (hstep : s.begin kind timeout items = some s') : Inv s' := by
  obtain ⟨hguard, ⟨⟩⟩ := ite_none_right_eq_some.mp hstep
  have hkept := h.gone (.inr hguard.2)
  have hheld := h.held
  rw [hkept] at hheld
  constructor
  case awake => exact .inl hguard.1.2
  case unflagged => exact fun _ => rfl
  case gone => exact fun _ => rfl
  case held => exact hheld
  case noticed =>
    intro _ node type hlist
    exact absurd hlist (not_lt.mpr (hheld node type))

variable [DecidableEq O] [Fintype T]

theorem post_inv (h : Inv s) {t : T}
    (hpost : threadsPostEvent s.kernel t mask = some k) : Inv { s with kernel := k } := by
  have hview := view_postEvent hpost h.not_semaphore
  by_cases heq : s.me = t
  · rw [if_pos heq] at hview
    exact h.around k s.marks (h.awake_posted hview) (pending_posted hview)
      fun node type _ _ hmark => .inr hmark
  · rw [if_neg heq] at hview
    exact h.elsewhere hview

theorem signal_inv (h : Inv s)
    (hid : s.marks id = some m) (hlist : s.nodes.list m.node m.type = some list)
    (hsignal : vfsIntSelectSignalAll s.kernel list.threads = some k) :
    Inv (State.setMark { s with kernel := k } id none) := by
  have hview := view_signalAll hsignal h.not_semaphore
  by_cases hmem : some s.me ∈ list.threads
  · rw [if_pos hmem] at hview
    have hpend : k.eventState s.me &&& eventVfs ≠ 0 := by
      have hevents : k.eventState s.me = s.kernel.eventState s.me ||| eventVfs :=
        congrArg (fun v => v.2.1) hview
      rw [vfs_bit, hevents, getLsbD_or]
      exact Bool.or_true _
    exact h.around k _ (h.awake_posted hview) (fun _ => hpend) fun _ _ _ _ _ => .inl hpend
  · rw [if_neg hmem] at hview
    have hkernel := h.elsewhere hview
    refine hkernel.finish hid fun _ => ?_
    exact Nat.eq_zero_of_not_pos (mt (listens_pos_iff hlist).mp hmem)

theorem markStep_inv (h : Inv s) (hid : s.marks id = some m)
    (hstep : markStep s id m = some s') : Inv s' := by
  rw [markStep] at hstep
  cases hstage : m.stage <;> rw [hstage] at hstep
  case testing =>
    dsimp only at hstep
    split at hstep
    · cases hstep
      exact h.advance hid .loading
    · rename_i hflag
      cases hstep
      exact h.finish hid fun hwanted => absurd hwanted hflag
  case loading =>
    dsimp only at hstep
    split at hstep
    · rename_i hnone
      cases hstep
      refine h.finish hid fun _ => ?_
      rw [listens, hnone]
    · cases hstep
      exact h.advance hid .signalling
  case signalling =>
    obtain ⟨list, hlist, hstep⟩ := bind_eq_some_iff.mp hstep
    obtain ⟨k, hk, hstep⟩ := bind_eq_some_iff.mp hstep
    cases hstep
    exact signal_inv h hid hlist hk

omit [Fintype T] in
theorem waiting_inv (h : Inv s) (hrun : Running s) (hstage : s.call.stage = .waiting)
    {fired : Option (BitVec 32)}
    (hwait : threadsWaitEvents s.kernel (s.call.kind.mask s.call.timeout) = (fired, k)) :
    Inv (State.goto { s with kernel := k } (if fired = none then .asleep else .removing)) := by
  rw [threadsWaitEvents] at hwait
  split at hwait
  · cases hwait
    exact h.wakes hrun.2
  rw [hrun.1] at hwait
  split at hwait
  · rename_i hquiet
    cases hwait
    exact sleep_inv h hstage hquiet (hrun.1 ▸ view_sleep s.kernel _)
  · cases hwait
    exact h.wakes hrun.2

omit [Fintype T] in
theorem callerStep_inv (h : Inv s) (hrun : Running s) {malloc : Bool}
    (hstep : callerStep s malloc = some s') : Inv s' := by
  rw [callerStep] at hstep
  cases hstage : s.call.stage <;> rw [hstage] at hstep
  case listing =>
    dsimp only at hstep
    have hin : Listening s.call.stage := hstage ▸ trivial
    have htest : ∀ node type, s.call.stage ≠ .testing node type := by
      rw [hstage]
      exact fun node type heq => (by cases heq)
    split at hstep
    case h_1 hnil =>
      cases hstep
      refine h.goOn hrun.2 hin htest rfl rfl id ?_ rfl ?_
      · exact decide_settled s.call
      · exact decide_inside s.call
    case h_2 todo htodo =>
      cases hstep
      refine h.goOn hrun.2 hin htest rfl rfl (fun _ => rfl) ?_ rfl ?_
      · change Settled s.call.stage → _
        rw [hstage]
        exact False.elim
      · change ¬ (s.call.stage = _ ∨ s.call.stage = _)
        rw [hstage]
        exact fun hout => hout.elim nofun nofun
    case h_3 node type todo htodo =>
      cases hstep
      refine h.goOn hrun.2 hin htest (allocate_listens _ _ _ _) (allocate_flag _ _ _) id False.elim
        rfl ?_
      exact fun hout => hout.elim nofun nofun
  case adding node type =>
    cases hstep
    exact adding_inv h hrun.2 hstage malloc
  case testing node type =>
    cases hstep
    exact testing_inv h hrun.2 hstage
  case timing =>
    cases hstep
    exact timing_inv h hrun hstage
  case waiting =>
    dsimp only at hstep
    split at hstep
    case h_1 k hwait =>
      cases hstep
      exact waiting_inv h hrun hstage hwait
    case h_2 fired k hwait =>
      cases hstep
      exact waiting_inv h hrun hstage hwait
  case asleep =>
    cases hstep
    exact h.wakes hrun.2
  case removing =>
    dsimp only at hstep
    split at hstep
    case h_1 hnil =>
      cases hstep
      exact leave_inv h hnil hrun.2 (leave_outside s.call)
    case h_2 node type kept hkept =>
      cases hstep
      exact removing_inv h hrun.2 hstage hkept
  case clearing =>
    cases hstep
    exact leave_inv h (h.gone (.inl hstage)) hrun.2 (.inr rfl)
  case outside =>
    cases hstep

theorem step_inv (h : Inv s) {op : Op T N} (hstep : step s op = some s') : Inv s' := by
  cases op with
  | select isKernel maxHandle sets timeout extraEvents => exact begin_inv h hstep
  | selectNode node typeFlags timeout => exact begin_inv h hstep
  | next malloc =>
    obtain ⟨hrun, hstep⟩ := ite_none_right_eq_some.mp hstep
    exact callerStep_inv h hrun hstep
  | mark id node type value =>
    obtain ⟨hid, ⟨⟩⟩ := ite_none_right_eq_some.mp hstep
    exact mark_inv h hid node type value
  | markNext id =>
    obtain ⟨m, hid, hstep⟩ := bind_eq_some_iff.mp hstep
    exact markStep_inv h hid hstep
  | post t mask =>
    obtain ⟨k, hpost, rfl⟩ := map_eq_some_iff.mp hstep
    exact post_inv h hpost
  | switch priority t =>
    obtain ⟨k, hswitch, rfl⟩ := map_eq_some_iff.mp hstep
    exact h.elsewhere (congrFun (view_dispatch hswitch) s.me)

omit [Fintype T] in
theorem callerStep_lists {malloc : Bool} (hstep : callerStep s malloc = some s') :
    s'.kernel.lists = s.kernel.lists := by
  have hwaits (mask : BitVec 32) : (threadsWaitEvents s.kernel mask).2.lists = s.kernel.lists := by
    rw [threadsWaitEvents]
    split_ifs
    all_goals rfl
  rw [callerStep] at hstep
  cases hstage : s.call.stage <;> rw [hstage] at hstep <;> dsimp only at hstep
  case waiting =>
    split at hstep
    all_goals
      rename_i hwait
      cases hstep
      exact (congrArg (·.2.lists) hwait).symm.trans (hwaits _)
  case outside => cases hstep
  all_goals
    repeat' split at hstep
    all_goals
      cases hstep
      rfl

theorem step_tailed (h : Tailed s.kernel) {op : Op T N} (hstep : step s op = some s') :
    Tailed s'.kernel := by
  cases op with
  | select isKernel maxHandle sets timeout extraEvents =>
    obtain ⟨-, ⟨⟩⟩ := ite_none_right_eq_some.mp hstep
    exact h
  | selectNode node typeFlags timeout =>
    obtain ⟨-, ⟨⟩⟩ := ite_none_right_eq_some.mp hstep
    exact h
  | next malloc =>
    obtain ⟨-, hstep⟩ := ite_none_right_eq_some.mp hstep
    rw [Tailed, callerStep_lists hstep]
    exact h
  | mark id node type value =>
    obtain ⟨-, ⟨⟩⟩ := ite_none_right_eq_some.mp hstep
    exact h
  | markNext id =>
    obtain ⟨m, -, hstep⟩ := bind_eq_some_iff.mp hstep
    rw [markStep] at hstep
    split at hstep
    case h_3 =>
      obtain ⟨list, -, hstep⟩ := bind_eq_some_iff.mp hstep
      obtain ⟨k, hk, ⟨⟩⟩ := bind_eq_some_iff.mp hstep
      obtain ⟨k', hk', htailed⟩ := h.signalAll list.threads
      cases hk'.symm.trans hk
      exact htailed
    all_goals
      split at hstep
      all_goals
        cases hstep
        exact h
  | post t mask =>
    obtain ⟨k, hpost, rfl⟩ := map_eq_some_iff.mp hstep
    exact h.post hpost
  | switch priority t =>
    obtain ⟨k, hswitch, rfl⟩ := map_eq_some_iff.mp hstep
    exact h.dispatch hswitch

variable {u : State T O N}

def stepsLeft : MarkStage → ℕ
  | .testing => 3
  | .loading => 2
  | .signalling => 1

/-- The remaining steps of the marking call do not fail, and the caller then runs with its
event. -/
def Wakes (s : State T O N) (id steps : ℕ) : Prop :=
  ∃ u, run step s (List.replicate steps (.markNext id)) = some u ∧
    u.kernel.status u.me = .active ∧ Pending u

/-- Some call is marking the node, and wakes the caller. -/
def Delivering (s : State T O N) (node : N) (type : SelType) : Prop :=
  ∃ id m, s.marks id = some m ∧ m.node = node ∧ m.type = type ∧ Wakes s id (stepsLeft m.stage)

theorem Wakes.step {n : ℕ} (hid : s.marks id = some m) (hstep : markStep s id m = some s')
    (h : Wakes s' id n) : Wakes s id (n + 1) := by
  obtain ⟨u, hrun, hu⟩ := h
  refine ⟨u, bind_eq_some_iff.mpr ⟨s', ?_, hrun⟩, hu⟩
  rw [VfsSelectSteps.step, hid]
  exact hstep

section

variable (hsleep : Sleeping s) (htailed : Tailed s.kernel)
include hsleep htailed

theorem signalling_wakes (hid : s.marks id = some ⟨node, type, .signalling⟩)
    (hlist : 0 < listens s.nodes s.me node type) : Wakes s id 1 := by
  cases hfound : s.nodes.list node type with
  | none => simp [listens, hfound] at hlist
  | some list =>
    obtain ⟨k, hsignal, -⟩ := htailed.signalAll list.threads
    have hst : s.kernel.status s.me ≠ .semaphoreSleep := by simp [hsleep.status]
    have hview := view_signalAll hsignal hst
    rw [if_pos ((listens_pos_iff hfound).mp hlist)] at hview
    obtain ⟨hstatus, hrest⟩ := Prod.mk.inj hview
    obtain ⟨hevents, -⟩ := Prod.mk.inj hrest
    have hmark : markStep s id ⟨node, type, .signalling⟩ =
        some (State.setMark { s with kernel := k } id none) := by
      simp [markStep, hfound, hsignal]
    refine Wakes.step hid hmark ⟨_, rfl, ?_, ?_⟩
    · exact hstatus.trans (if_pos ⟨hsleep.status, hsleep.waits⟩)
    · change k.eventState s.me &&& eventVfs ≠ 0
      rw [hevents, vfs_bit, getLsbD_or]
      exact Bool.or_true _

theorem loading_wakes (hid : s.marks id = some ⟨node, type, .loading⟩)
    (hlist : 0 < listens s.nodes s.me node type) : Wakes s id 2 := by
  have hstill : Sleeping (s.setMark id (some ⟨node, type, .signalling⟩)) := hsleep.same rfl
  refine Wakes.step hid ?_ (signalling_wakes hstill htailed (update_self _ _ _) hlist)
  rw [markStep]
  dsimp only
  split
  · rename_i hnone
    rw [listens, hnone] at hlist
    cases hlist
  · rfl

theorem testing_wakes (hid : s.marks id = some ⟨node, type, .testing⟩)
    (hlist : 0 < listens s.nodes s.me node type) (hflag : s.nodes.flag node type = type.wanted) :
    Wakes s id 3 := by
  have hstill : Sleeping (s.setMark id (some ⟨node, type, .loading⟩)) := hsleep.same rfl
  exact Wakes.step hid (if_pos hflag) (loading_wakes hstill htailed (update_self _ _ _) hlist)

theorem marking_delivers (hlist : 0 < listens s.nodes s.me node type)
    (hflag : s.nodes.flag node type = type.wanted) (hmark : Marking s node type) :
    Delivering s node type := by
  obtain ⟨id, ⟨node', type', stage⟩, hid, rfl, rfl⟩ := hmark
  refine ⟨id, _, hid, rfl, rfl, ?_⟩
  cases stage with
  | testing => exact testing_wakes hsleep htailed hid hlist hflag
  | loading => exact loading_wakes hsleep htailed hid hlist
  | signalling => exact signalling_wakes hsleep htailed hid hlist

end

section Sample

/-- Thread 0 runs and is about to select the node for reading. -/
def sampleState : State (Fin 2) Unit Unit where
  kernel := ready (fun _ => ()) 0 [1]
  vfs := ⟨[], none, fun _ => 0, fun _ => ⟨none, none, 0, 0⟩, fun _ => ⟨none, none, 0, 0⟩, 0,
    Nat.zero_le _, ⟨0, 0⟩, none, none⟩
  nodes := ⟨fun _ _ => none, fun _ _ => false⟩
  me := 0
  call := ⟨.selectNode, .never, .outside, [], [], false⟩
  marks _ := none

def sampleRun : List (Op (Fin 2) Unit) :=
  .selectNode () (· == .read) .never :: List.replicate 5 (.next true) ++
    [.mark 0 () .read true, .markNext 0]

theorem sampleState_start : Start sampleState where
  tailed := by
    unfold Tailed
    decide
  awake := rfl
  outside := rfl
  kept := rfl
  unlisted _ _ := rfl

end Sample

end VfsSelectWakeups
