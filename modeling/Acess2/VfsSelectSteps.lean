import Acess2.LocksModel
import Acess2.ThreadsLinks
import Acess2.ThreadsQueues
import Acess2.VfsSelect

/-! One thread in `VFS_Select` and `VFS_SelectNode` against any number of `VFS_Mark*` calls
(`vfs/select.c`, `events.c`), step by step. The caller allocates a list, adds itself, tests the
flag, and so on for each node, then waits; a marking call stores its flag, tests it, loads the
list and signals it under the list's lock. -/
namespace VfsSelectSteps

open LocksModel Option ThreadsLinks ThreadsModel ThreadsQueues VfsHandles VfsSelect BitVec

def eventVfs : BitVec 32 := 0x1

def eventSignal : BitVec 32 := 0x4

section Model

variable {T O N : Type}

/-- The `Timeout` of a call: a null pointer, a positive time, or one that has run out -/
inductive Timeout where
  | never | later | now
  deriving DecidableEq

inductive Kind where
  | select (extraEvents : BitVec 32)
  | selectNode
  deriving DecidableEq

def Kind.mask : Kind → Timeout → BitVec 32
  | .select extraEvents, .never => eventVfs ||| eventSignal ||| extraEvents
  | .select extraEvents, _ => eventVfs ||| eventTimer ||| extraEvents
  | .selectNode, .never => eventVfs ||| eventSignal
  | .selectNode, _ => eventVfs ||| eventTimer ||| eventSignal

inductive Item (N : Type) where
  | listen (node : N) (type : SelType)
  -- Bad FD counts as an error
  | badFD

def selTypes : List SelType := [.read, .write, .error]

/-- The items of one set of `VFS_Select`; invalid descriptors for reading and writing are
passed over. -/
def setItems (nodeOf : ℕ → Option N) (n : ℕ) (type : SelType) (set : FdSet) : List (Item N) :=
  ((List.range n).filter (fdIsSet · set)).filterMap fun i =>
    match nodeOf i with
    | some node => some (.listen node type)
    | none => if type = .error then some .badFD else none

def selectItems (nodeOf : ℕ → Option N) (n : ℕ) (sets : SelType → Option FdSet) : List (Item N) :=
  selTypes.flatMap fun type => (sets type).elim [] (setItems nodeOf n type)

def selectNodeItems (node : N) (typeFlags : SelType → Bool) : List (Item N) :=
  (selTypes.filter typeFlags).map (.listen node)

inductive Stage (N : Type) where
  /-- at the next item -/
  | listing
  | adding (node : N) (type : SelType)
  | testing (node : N) (type : SelType)
  /-- in front of `Threads_ClearEvent` of the timer event -/
  | timing
  /-- in front of `Threads_WaitEvents` -/
  | waiting
  /-- in the sleep of `Threads_WaitEvents` -/
  | asleep
  /-- taking itself off the lists -/
  | removing
  /-- in front of the last two `Threads_ClearEvent`s -/
  | clearing
  | outside
  deriving DecidableEq

structure Progress (N : Type) where
  kind : Kind
  timeout : Timeout
  stage : Stage N
  todo : List (Item N)
  /-- the listens that will be taken off their lists -/
  kept : List (N × SelType)
  /-- some flag had its wanted value -/
  flagged : Bool

inductive MarkStage where
  | testing | loading | signalling
  deriving DecidableEq

structure Mark (N : Type) where
  node : N
  type : SelType
  stage : MarkStage
  deriving DecidableEq

structure State (T O N : Type) where
  kernel : Kernel T O
  vfs : Vfs N
  nodes : Nodes T N
  me : T
  call : Progress N
  marks : ℕ → Option (Mark N)

inductive Op (T N : Type) where
  | select (isKernel : Bool) (maxHandle : ℤ) (sets : SelType → Option FdSet) (timeout : Timeout)
      (extraEvents : BitVec 32)
  | selectNode (node : N) (typeFlags : SelType → Bool) (timeout : Timeout)
  /-- the caller's next step -/
  | next (malloc : Bool)
  | mark (id : ℕ) (node : N) (type : SelType) (value : Bool)
  | markNext (id : ℕ)
  /-- an event posted by anybody -/
  | post (t : T) (mask : BitVec 32)
  | switch (priority : Priority) (t : T)

def Progress.decide (c : Progress N) : Stage N :=
  if c.flagged then .removing
  else
    match c.timeout with
    | .never => .waiting
    | .later => .timing
    | .now => .removing

/-- The end of a call that has taken itself off the lists. `VFS_Select` returns early if it did
not have to wait. -/
def Progress.leave (c : Progress N) : Stage N :=
  match c.kind with
  | .select _ => if c.flagged then .outside else .clearing
  | .selectNode => .clearing

/-- A listen is remembered if it succeeded; `VFS_SelectNode` does not look. -/
def Progress.keep (c : Progress N) (node : N) (type : SelType) (failed : Bool) : Progress N :=
  match c.kind with
  | .select _ => if failed then c else { c with kept := c.kept ++ [(node, type)] }
  | .selectNode => { c with kept := c.kept ++ [(node, type)] }

def Listening : Stage N → Prop
  | .removing | .clearing | .outside => False
  | _ => True

def Settled : Stage N → Prop
  | .timing | .waiting | .asleep => True
  | _ => False

theorem decide_settled (c : Progress N) : Settled c.decide → c.flagged = false := by
  rw [Progress.decide]
  split_ifs with hflagged
  · exact False.elim
  · exact fun _ => Bool.eq_false_of_not_eq_true hflagged

theorem decide_inside (c : Progress N) : ¬ (c.decide = .clearing ∨ c.decide = .outside) := by
  rw [Progress.decide]
  split_ifs
  · simp
  · cases c.timeout
    all_goals simp

theorem leave_outside (c : Progress N) : c.leave = .clearing ∨ c.leave = .outside := by
  rw [Progress.leave]
  cases c.kind with
  | select extraEvents =>
    split_ifs
    · exact .inr rfl
    · exact .inl rfl
  | selectNode => exact .inl rfl

theorem keep_flagged (c : Progress N) (node : N) (type : SelType) (failed : Bool) :
    (c.keep node type failed).flagged = c.flagged := by
  rw [Progress.keep]
  split
  · split
    · rfl
    · rfl
  · rfl

variable [DecidableEq N]

theorem count_keep (c : Progress N) (node : N) (type : SelType) (failed : Bool) (node' : N)
    (type' : SelType) :
    c.kept.count (node', type') + (if node' = node ∧ type' = type ∧ ¬ failed = true then 1 else 0) ≤
      (c.keep node type failed).kept.count (node', type') := by
  have hcons : (c.kept ++ [(node, type)]).count (node', type') =
      c.kept.count (node', type') + if node' = node ∧ type' = type then 1 else 0 := by
    rw [List.count_append, List.count_singleton]
    apply congrArg (c.kept.count (node', type') + ·)
    apply if_congr _ rfl rfl
    rw [beq_iff_eq, Prod.mk.injEq, eq_comm, eq_comm (a := type)]
  rw [Progress.keep]
  cases c.kind with
  | select extraEvents =>
    cases failed with
    | true => simp
    | false => simp [hcons]
  | selectNode =>
    rw [hcons]
    apply Nat.add_le_add_left
    split_ifs with hadd hown
    · exact Nat.le_refl 1
    · exact absurd ⟨hadd.1, hadd.2.1⟩ hown
    · exact Nat.zero_le 1
    · exact Nat.le_refl 0

def allocate (s : Nodes T N) (node : N) (type : SelType) : Nodes T N :=
  match s.list node type with
  | none => s.setList node type .empty
  | some _ => s

theorem allocate_flag (nodes : Nodes T N) (node : N) (type : SelType) :
    (allocate nodes node type).flag = nodes.flag := by
  rw [allocate]
  split
  · rfl
  · rfl

variable [DecidableEq T] in
theorem allocate_listens (nodes : Nodes T N) (node : N) (type : SelType) (t : T) :
    listens (allocate nodes node type) t = listens nodes t := by
  rw [allocate]
  split
  · rename_i hnone
    funext node' type'
    rw [listens_setList]
    split_ifs with hown
    · obtain ⟨rfl, rfl⟩ := hown
      rw [listens, hnone]
      rfl
    · rfl
  · rfl

def State.goto (s : State T O N) (stage : Stage N) : State T O N :=
  { s with call := { s.call with stage := stage } }

variable [DecidableEq T] [DecidableEq O] [Fintype T]

def callerStep (s : State T O N) (malloc : Bool) : Option (State T O N) :=
  match s.call.stage with
  | .listing =>
    match s.call.todo with
    | [] => some (s.goto s.call.decide)
    | .badFD :: todo => some { s with call := { s.call with todo := todo, flagged := true } }
    | .listen node type :: todo =>
      some { s with
        nodes := allocate s.nodes node type
        call := { s.call with todo := todo, stage := .adding node type } }
  | .adding node type =>
    let (failed, nodes) := s.nodes.addThread node type s.me malloc
    some { s with
      nodes := nodes
      call := { s.call.keep node type failed with stage := .testing node type } }
  | .testing node type =>
    let flagged := s.call.flagged || s.nodes.flag node type == type.wanted
    some { s with call := { s.call with stage := .listing, flagged := flagged } }
  | .timing => some (State.goto { s with kernel := threadsClearEvent s.kernel eventTimer } .waiting)
  | .waiting =>
    match threadsWaitEvents s.kernel (s.call.kind.mask s.call.timeout) with
    | (none, k) => some (State.goto { s with kernel := k } .asleep)
    | (some _, k) => some (State.goto { s with kernel := k } .removing)
  | .asleep =>
    let (_, k) := threadsIntSleepEnd s.kernel
    let (_, k) := threadsWaitEventsEnd k (s.call.kind.mask s.call.timeout)
    some (State.goto { s with kernel := k } .removing)
  | .removing =>
    match s.call.kept with
    | [] => some (s.goto s.call.leave)
    | (node, type) :: kept =>
      some { s with
        nodes := s.nodes.remThread node type s.me
        call := { s.call with kept := kept } }
  | .clearing =>
    let k := threadsClearEvent s.kernel eventVfs
    some (State.goto { s with kernel := threadsClearEvent k eventTimer } .outside)
  | .outside => none

/-- `VFS_int_Select_SignalAll`, under the list's lock -/
def vfsIntSelectSignalAll : Kernel T O → List (Option T) → Option (Kernel T O)
  | k, [] => some k
  | k, none :: places => vfsIntSelectSignalAll k places
  | k, some t :: places => do vfsIntSelectSignalAll (← threadsPostEvent k t eventVfs) places

section

variable (s : State T O N)

def State.setMark (id : ℕ) (m : Option (Mark N)) : State T O N :=
  { s with marks := Function.update s.marks id m }

def markStep (id : ℕ) (m : Mark N) : Option (State T O N) :=
  match m.stage with
  | .testing =>
    if s.nodes.flag m.node m.type = m.type.wanted then
      some (s.setMark id (some { m with stage := .loading }))
    else some (s.setMark id none)
  | .loading =>
    match s.nodes.list m.node m.type with
    | none => some (s.setMark id none)
    | some _ => some (s.setMark id (some { m with stage := .signalling }))
  | .signalling => do
    let list ← s.nodes.list m.node m.type
    let k ← vfsIntSelectSignalAll s.kernel list.threads
    some (State.setMark { s with kernel := k } id none)

def Running : Prop :=
  s.kernel.cur = s.me ∧ s.kernel.status s.me = .active

instance : Decidable (Running s) := inferInstanceAs (Decidable (_ ∧ _))

def State.begin (kind : Kind) (timeout : Timeout) (items : List (Item N)) :
    Option (State T O N) :=
  if Running s ∧ s.call.stage = .outside then
    some { s with call := ⟨kind, timeout, .listing, items, [], false⟩ }
  else none

def step : Op T N → Option (State T O N)
  | .select isKernel maxHandle sets timeout extraEvents =>
    s.begin (.select extraEvents) timeout
      (selectItems (fdNode s.vfs isKernel) maxHandle.toNat sets)
  | .selectNode node typeFlags timeout =>
    s.begin .selectNode timeout (selectNodeItems node typeFlags)
  | .next malloc => if Running s then callerStep s malloc else none
  | .mark id node type value =>
    if s.marks id = none then
      some (State.setMark { s with nodes := s.nodes.setFlag node type value } id
        (some ⟨node, type, .testing⟩))
    else none
  | .markNext id => (s.marks id).bind (markStep s id)
  | .post t mask => (threadsPostEvent s.kernel t mask).map fun k => { s with kernel := k }
  | .switch priority t => (dispatch s.kernel priority t).map fun k => { s with kernel := k }

end

end Model

variable {T O : Type} {k k' : Kernel T O} {t u : T} {mask : BitVec 32}

def view (k : Kernel T O) (t : T) : ThreadStatus × BitVec 32 × ℤ :=
  (k.status t, k.eventState t, k.retStatus t)

variable {v : ThreadStatus × BitVec 32 × ℤ}

theorem view_eq (h : view k t = v) :
    k.status t = v.1 ∧ k.eventState t = v.2.1 ∧ k.retStatus t = v.2.2 := by
  subst h
  exact ⟨rfl, rfl, rfl⟩

def posted (mask : BitVec 32) (v : ThreadStatus × BitVec 32 × ℤ) : ThreadStatus × BitVec 32 × ℤ :=
  (if v.1 = .eventSleep ∧ BitVec.ofInt 32 v.2.2 &&& mask ≠ 0 then .active else v.1,
    v.2.1 ||| mask, v.2.2)

variable [DecidableEq T] [DecidableEq O]

theorem view_sleep (k : Kernel T O) (n : ℤ) :
    view (threadsIntSleep k .eventSleep none n .self) k.cur =
      (.eventSleep, k.eventState k.cur, n) := by
  simp [view, threadsIntSleep, threadsRemActive, Kernel.setNext, Kernel.setStatus,
    Kernel.setRetStatus]

theorem view_addToList {l : ListName O} (h : threadsIntAddToList k l u = some k') :
    view k' = view k := by
  obtain ⟨a, n, e, rfl, -⟩ := threadsIntAddToList_links h
  rfl

theorem view_addActive (h : threadsAddActive k u = some k') (t : T) :
    view k' t = if t = u then (.active, (view k t).2) else view k t := by
  have hset : view (k.setStatus u .active) t =
      if t = u then (.active, (view k t).2) else view k t := by
    split_ifs with heq
    · simp [view, Kernel.setStatus, heq]
    · simp [view, Kernel.setStatus, heq]
  rw [← hset]
  by_cases hact : k.status u = .active
  · rw [threadsAddActive, if_pos hact] at h
    cases h
  by_cases hcur : u = k.cur
  · subst hcur
    rw [threadsAddActive_cur hact] at h
    cases h
    rfl
  · rw [threadsAddActive_other hact hcur] at h
    obtain ⟨k₁, hk₁, rfl⟩ := map_eq_some_iff.mp h
    exact congrFun (view_addToList hk₁) t

/-- A run queue that has a first thread has a last one, so that a thread can be added. -/
def Tailed (k : Kernel T O) : Prop :=
  ∀ p, (k.lists (.activeThreads p)).head ≠ none → (k.lists (.activeThreads p)).tail ≠ none

omit [DecidableEq T] in
theorem Tailed.setList (h : Tailed k) {l : ListName O} {e : ThreadList T}
    (hlists : k'.lists = Function.update k.lists l e) (he : e.head ≠ none → e.tail ≠ none) :
    Tailed k' := by
  intro p
  rw [hlists]
  by_cases hl : .activeThreads p = l
  · rw [hl, Function.update_self]
    exact he
  · rw [Function.update_of_ne hl]
    exact h p

theorem Tailed.addToList (h : Tailed k) (p : Priority) (u : T) :
    ∃ k', threadsIntAddToList k (.activeThreads p) u = some k' ∧ Tailed k' := by
  rw [threadsIntAddToList]
  cases hhead : (k.lists (.activeThreads p)).head with
  | none => exact ⟨_, rfl, h.setList rfl (by simp)⟩
  | some first =>
    obtain ⟨last, hlast⟩ := ne_none_iff_exists'.mp (h p (by simp [hhead]))
    exact ⟨_, by rw [hlast]; rfl, h.setList rfl (by simp)⟩

theorem Tailed.addActive (h : Tailed k) (hact : k.status u ≠ .active) :
    ∃ k', threadsAddActive k u = some k' ∧ Tailed k' := by
  by_cases hcur : u = k.cur
  · subst hcur
    exact ⟨_, threadsAddActive_cur hact, h⟩
  · obtain ⟨k₁, hadd, hk₁⟩ := Tailed.addToList (k := k.setStatus u .active) h (k.priority u) u
    rw [threadsAddActive_other hact hcur, hadd]
    exact ⟨_, rfl, hk₁⟩

theorem Tailed.addActive_some (hadd : threadsAddActive k u = some k') (h : Tailed k) :
    Tailed k' := by
  have hact : k.status u ≠ .active := fun hact => by simp [threadsAddActive, hact] at hadd
  obtain ⟨k₁, hk₁, htailed⟩ := h.addActive hact
  cases hk₁.symm.trans hadd
  exact htailed

variable [Fintype T]

theorem view_dispatch {p : Priority} (h : dispatch k p u = some k') : view k' = view k := by
  obtain ⟨-, n, L, rfl, -⟩ := dispatch_links h
  rfl

theorem view_forceWake (h : semaphoreForceWake k u = some k') (htu : t ≠ u) :
    view k' t = view k t := by
  have hend {k₁ k₂ : Kernel T O} (hview : view k₂ = view k₁)
      (hwake : threadsAddActive (k₂.setRetStatus u 0) u = some k') : view k' t = view k₁ t := by
    rw [view_addActive hwake, if_neg htu, ← hview]
    simp [view, Kernel.setRetStatus, htu]
  have htail {k₁ : Kernel T O} (l : ListName O) (e : ThreadList T) (p : Prop) [Decidable p] :
      view (if p then k₁.setList l e else k₁) = view k₁ := by
    split
    · rfl
    · rfl
  rw [semaphoreForceWake] at h
  split at h
  · cases h
    rfl
  obtain ⟨sem, -, h⟩ := bind_eq_some_iff.mp h
  dsimp only at h
  split at h
  · exact (hend (htail _ _ _) h).trans rfl
  · obtain ⟨found, -, h⟩ := bind_eq_some_iff.mp h
    cases found with
    | some p => exact (hend (htail _ _ _) h).trans rfl
    | none => exact hend (htail _ _ _) h

theorem view_postEvent (h : threadsPostEvent k u mask = some k')
    (hst : k.status t ≠ .semaphoreSleep) :
    view k' t = if t = u then posted mask (view k t) else view k t := by
  rw [threadsPostEvent] at h
  split at h
  · rename_i hzero
    cases h
    subst hzero
    simp [posted, view]
  dsimp only at h
  have hset : view { k with
      eventState := Function.update k.eventState u (k.eventState u ||| mask) } t =
      if t = u then ((view k t).1, (view k t).2.1 ||| mask, (view k t).2.2) else view k t := by
    split_ifs with heq
    · simp [view, heq]
    · simp [view, heq]
  split at h
  case h_1 hsleep =>
    split at h
    · rename_i hwake
      rw [view_addActive h]
      split_ifs with heq
      · subst heq
        rw [hset, if_pos rfl, posted, if_pos ⟨hsleep, hwake⟩]
      · rw [hset, if_neg heq]
    rename_i hstay
    cases h
    rw [hset]
    split_ifs with heq
    · subst heq
      rw [posted, if_neg fun hp => hstay hp.2]
    · rfl
  case h_2 hsem =>
    have htu : t ≠ u := fun heq => hst (heq ▸ hsem)
    rw [if_neg htu]
    split at h
    · rw [view_forceWake h htu, hset, if_neg htu]
    · cases h
      rw [hset, if_neg htu]
  case h_3 hother _ =>
    cases h
    rw [hset]
    split_ifs with heq
    · subst heq
      rw [posted, if_neg fun hp => hother hp.1]
    · rfl

theorem posted_posted (mask : BitVec 32) (v : ThreadStatus × BitVec 32 × ℤ) :
    posted mask (posted mask v) = posted mask v := by
  rw [posted, posted]
  rw [BitVec.or_assoc, BitVec.or_self]
  split_ifs
  all_goals simp_all

theorem posted_status (hst : v.1 ≠ .semaphoreSleep) : (posted mask v).1 ≠ .semaphoreSleep := by
  rw [posted]
  split_ifs
  · exact ThreadStatus.noConfusion
  · exact hst

theorem view_signalAll {places : List (Option T)} (h : vfsIntSelectSignalAll k places = some k')
    (hst : k.status t ≠ .semaphoreSleep) :
    view k' t = if some t ∈ places then posted eventVfs (view k t) else view k t := by
  induction places generalizing k with
  | nil =>
    cases h
    simp
  | cons place places ih =>
    cases place with
    | none =>
      rw [ih h hst]
      simp
    | some u =>
      obtain ⟨k₁, hk₁, h⟩ := bind_eq_some_iff.mp h
      have hview := view_postEvent hk₁ hst
      have hst₁ : k₁.status t ≠ .semaphoreSleep := by
        change (view k₁ t).1 ≠ _
        rw [hview]
        split_ifs
        · exact posted_status hst
        · exact hst
      rw [ih h hst₁, hview]
      by_cases heq : t = u
      · subst heq
        simp [posted_posted]
      · simp [heq]

omit [DecidableEq T] [DecidableEq O] [Fintype T] in
theorem vfs_bit (x : BitVec 32) : x &&& eventVfs ≠ 0 ↔ x.getLsbD 0 = true := by
  have hone : x &&& eventVfs = setWidth 32 (ofBool (x.getLsbD 0)) :=
    and_one_eq_setWidth_ofBool_getLsbD
  rw [hone]
  cases x.getLsbD 0 with
  | false => decide
  | true => decide

theorem mask_vfs (kind : Kind) (timeout : Timeout) : (kind.mask timeout).getLsbD 0 = true := by
  have hvfs : eventVfs.getLsbD 0 = true := rfl
  cases kind with
  | select extraEvents =>
    cases timeout
    all_goals simp only [Kind.mask, getLsbD_or, hvfs, Bool.true_or]
  | selectNode =>
    cases timeout
    all_goals rfl

theorem Tailed.forceWake (hwake : semaphoreForceWake k u = some k') (h : Tailed k) :
    Tailed k' := by
  have hend (k₁ : Kernel T O) (hk₁ : Tailed k₁) {sem : O} {e : ThreadList T} {q : Prop}
      [Decidable q] (hadd : threadsAddActive
        ((if q then k₁.setList (.semWaiting sem) e else k₁).setRetStatus u 0) u = some k') :
      Tailed k' := by
    refine Tailed.addActive_some hadd fun p => ?_
    split
    · exact hk₁ p
    · exact hk₁ p
  rw [semaphoreForceWake] at hwake
  split at hwake
  · cases hwake
    exact h
  obtain ⟨sem, -, hwake⟩ := bind_eq_some_iff.mp hwake
  dsimp only at hwake
  split at hwake
  · exact hend (setHead k (.semWaiting sem) (k.next u)) h hwake
  · obtain ⟨found, -, hwake⟩ := bind_eq_some_iff.mp hwake
    cases found with
    | some p => exact hend (k.setNext p (k.next u)) h hwake
    | none => exact hend k h hwake

theorem Tailed.post (h : Tailed k) (hpost : threadsPostEvent k u mask = some k') : Tailed k' := by
  rw [threadsPostEvent] at hpost
  split at hpost
  · cases hpost
    exact h
  dsimp only at hpost
  split at hpost
  case h_1 =>
    split at hpost
    · exact Tailed.addActive_some hpost h
    · cases hpost
      exact h
  case h_2 =>
    split at hpost
    · exact Tailed.forceWake hpost h
    · cases hpost
      exact h
  case h_3 =>
    cases hpost
    exact h

/-- Posting the VFS event does not fail, and neither does signalling a list. -/
theorem Tailed.postVfs (h : Tailed k) (u : T) :
    ∃ k', threadsPostEvent k u eventVfs = some k' := by
  rw [threadsPostEvent, if_neg (by decide)]
  dsimp only
  split
  case h_1 hsleep =>
    split
    · obtain ⟨k₁, hadd, -⟩ := Tailed.addActive (k := { k with
          eventState := Function.update k.eventState u (k.eventState u ||| eventVfs) }) h
        (u := u) (by simp [hsleep])
      exact ⟨k₁, hadd⟩
    · exact ⟨_, rfl⟩
  case h_2 => exact ⟨_, if_neg (by decide)⟩
  case h_3 => exact ⟨_, rfl⟩

theorem Tailed.signalAll (h : Tailed k) (places : List (Option T)) :
    ∃ k', vfsIntSelectSignalAll k places = some k' ∧ Tailed k' := by
  induction places generalizing k with
  | nil => exact ⟨k, rfl, h⟩
  | cons place places ih =>
    cases place with
    | none => exact ih h
    | some u =>
      obtain ⟨k₁, hpost⟩ := h.postVfs u
      obtain ⟨k', hrest, htailed⟩ := ih (h.post hpost)
      exact ⟨k', bind_eq_some_iff.mpr ⟨k₁, hpost, hrest⟩, htailed⟩

theorem Tailed.delFromQueue (h : Tailed k) {p : Priority} {found : Bool}
    (hdel : threadsIntDelFromQueue k (.activeThreads p) u = some (found, k')) : Tailed k' := by
  obtain ⟨r, hseek, hdel⟩ := bind_eq_some_iff.mp hdel
  cases r with
  | none =>
    cases hdel
    exact h
  | some prev =>
    have hhead : prev = none → (k.lists (.activeThreads p)).head = some u := by
      rintro rfl
      rcases IntrusiveLists.seek_pred hseek with ⟨-, hhead⟩ | ⟨y, hy, -⟩
      · exact hhead
      · cases hy
    cases prev with
    | none =>
      have htail := h p (by simp [hhead rfl])
      by_cases hnext : k.next u = none
      · simp only [linkPast, hnext, if_true, some.injEq, Prod.mk.injEq] at hdel
        rw [← hdel.2]
        have hfirst : Tailed (k.setList (.activeThreads p)
            ⟨none, (k.lists (.activeThreads p)).tail⟩) := h.setList rfl fun hne => absurd rfl hne
        exact hfirst.setList rfl (by simp [Kernel.setList])
      · simp only [linkPast, hnext, if_false, some.injEq, Prod.mk.injEq] at hdel
        rw [← hdel.2]
        exact h.setList rfl fun _ => htail
    | some y =>
      have hpast : Tailed (linkPast k (.activeThreads p) u (some y)) := h
      by_cases hnext : k.next u = none
      · simp only [hnext, if_true, some.injEq, Prod.mk.injEq] at hdel
        rw [← hdel.2]
        exact hpast.setList rfl fun _ => some_ne_none y
      · simp only [hnext, if_false, some.injEq, Prod.mk.injEq] at hdel
        rw [← hdel.2]
        exact hpast

theorem Tailed.dispatch {p : Priority} (h : Tailed k) (hdisp : dispatch k p u = some k') :
    Tailed k' := by
  obtain ⟨k₁, hrel, hdisp⟩ := bind_eq_some_iff.mp hdisp
  have hk₁ : Tailed k₁ := by
    rw [releaseLast] at hrel
    split at hrel
    · obtain ⟨k₂, hadd, htailed⟩ := h.addToList (k.priority k.cur) k.cur
      cases hadd.symm.trans hrel
      exact htailed
    · cases hrel
      exact h
  by_cases hact : k₁.status u = .active
  · simp only [hact, ne_eq, not_true_eq_false, if_false] at hdisp
    obtain ⟨⟨found, k₂⟩, hdel, hdisp⟩ := bind_eq_some_iff.mp hdisp
    cases found with
    | false => simp at hdisp
    | true =>
      have hk₂ := hk₁.delFromQueue hdel
      cases hdisp
      exact hk₂
  · simp [hact] at hdisp

end VfsSelectSteps
