import Acess2.VfsHandles

/-! Waiting on files (`vfs/select.c`, `fd_set.h`): the lists of listening threads at a node,
and `VFS_Select` with the passes that register and deregister the calling thread.
A turn of a pass at one descriptor is one step; what other threads do between the turns is
given from outside. Allocating an empty list for a node always succeeds. -/
namespace VfsSelect

open Function Option VfsHandles

inductive SelType where
  | read | write | error
  deriving DecidableEq

section Lists

def numThreadsPerAlloc : ℕ := 4

/-- `tVFS_SelectList`: the places of all its blocks in order. The first block is part of the
list itself. -/
structure SelectList (T : Type) where
  threads : List (Option T)
  blocks : numThreadsPerAlloc ∣ threads.length
  firstEnt : threads ≠ []

variable {T : Type}

def SelectList.empty : SelectList T := ⟨[none, none, none, none], ⟨1, rfl⟩, List.cons_ne_nil _ _⟩

inductive Place (T : Type) where
  | taken (threads : List (Option T))
  | full
  | noSpace

/-- The search of `VFS_int_Select_AddThread`; `count` places have been passed. -/
def findPlace (t : T) (maxAllowed : ℤ) : ℤ → List (Option T) → Place T
  | _, [] => .noSpace
  | _, none :: places => .taken (some t :: places)
  | count, some u :: places =>
    if maxAllowed ≠ 0 ∧ count + 1 ≥ maxAllowed then .full
    else
      match findPlace t maxAllowed (count + 1) places with
      | .taken places => .taken (some u :: places)
      | .full => .full
      | .noSpace => .noSpace

open List

theorem findPlace_length {t : T} {maxAllowed count : ℤ} {places places' : List (Option T)}
    (h : findPlace t maxAllowed count places = .taken places') :
    places'.length = places.length := by
  induction places generalizing count places' with
  | nil => cases h
  | cons place places ih =>
    cases place with
    | none =>
      obtain rfl := Place.taken.inj h
      rfl
    | some u =>
      rw [findPlace] at h
      split at h
      · cases h
      · split at h
        case h_1 found hfound =>
          obtain rfl := Place.taken.inj h
          rw [length_cons, length_cons, ih hfound]
        all_goals cases h

/-- `VFS_int_Select_AddThread`: the flag is its boolean failure, `malloc` whether memory for
another block is there. -/
def vfsIntSelectAddThread (list : SelectList T) (t : T) (maxAllowed : ℤ) (malloc : Bool) :
    Bool × SelectList T :=
  match h : findPlace t maxAllowed 0 list.threads with
  | .taken threads =>
    (false, ⟨threads, findPlace_length h ▸ list.blocks, fun hnil =>
      list.firstEnt (List.length_eq_zero_iff.mp (findPlace_length h ▸ hnil ▸ rfl))⟩)
  | .full => (true, list)
  | .noSpace =>
    if malloc then
      (false, ⟨list.threads ++ [some t, none, none, none],
        List.length_append ▸ Nat.dvd_add list.blocks ⟨1, rfl⟩,
        List.append_ne_nil_of_left_ne_nil list.firstEnt _⟩)
    else (true, list)

section

variable (threads : List (Option T))

def dropBlock (start : ℕ) : List (Option T) :=
  threads.take start ++ threads.drop (start + numThreadsPerAlloc)

/-- A block that is not the first and has nobody left is freed. -/
def clearPlace (i : ℕ) : List (Option T) :=
  let threads := threads.set i none
  let start := numThreadsPerAlloc * (i / numThreadsPerAlloc)
  if start ≠ 0 ∧ ((threads.drop start).take numThreadsPerAlloc).all Option.isNone then
    dropBlock threads start
  else threads

theorem clearPlace_length {i : ℕ} (hi : i < threads.length)
    (hblocks : numThreadsPerAlloc ∣ threads.length) :
    numThreadsPerAlloc ∣ (clearPlace threads i).length ∧ clearPlace threads i ≠ [] := by
  obtain ⟨n, hn⟩ := hblocks
  rw [clearPlace]
  split
  · rename_i h
    rw [dropBlock, numThreadsPerAlloc, ← length_pos_iff_ne_nil]
    rw [numThreadsPerAlloc] at hn h
    simp only [length_append, length_take, length_drop, length_set]
    refine ⟨⟨n - 1, ?_⟩, ?_⟩
    · omega
    · omega
  · rw [← length_pos_iff_ne_nil, length_set]
    exact ⟨⟨n, hn⟩, by omega⟩

end

variable [DecidableEq T]

def vfsIntSelectRemThread (list : SelectList T) (t : T) : SelectList T :=
  if h : list.threads.idxOf (some t) < list.threads.length then
    have hlength := clearPlace_length list.threads h list.blocks
    ⟨clearPlace list.threads (list.threads.idxOf (some t)), hlength.1, hlength.2⟩
  else list

end Lists

section GetType

variable {T N : Type}

/-- `ReadThreads`, `WriteThreads` and `ErrorThreads`, and whether `DataAvaliable`, `BufferFull` and
`ErrorOccurred` are set -/
structure Nodes (T N : Type) where
  list : N → SelType → Option (SelectList T)
  flag : N → SelType → Bool

def SelType.wanted : SelType → Bool
  | .read => true
  | .write => false
  | .error => true

def SelType.maxAllowed : SelType → ℤ
  -- Max of 1 for read
  | .read => 1
  -- Max of 1 for write
  | .write => 1
  -- No max for error listeners
  | .error => -1

variable [DecidableEq T] [DecidableEq N]

def Nodes.setList (s : Nodes T N) (node : N) (type : SelType) (list : SelectList T) : Nodes T N :=
  { s with list := update s.list node (update (s.list node) type (some list)) }

def Nodes.setFlag (s : Nodes T N) (node : N) (type : SelType) (value : Bool) : Nodes T N :=
  { s with flag := update s.flag node (update (s.flag node) type value) }

omit [DecidableEq T] in
theorem setFlag_other {nodes : Nodes T N} {node node' : N} {type type' : SelType} {value : Bool}
    (h : ¬ (node = node' ∧ type = type')) :
    (nodes.setFlag node type value).flag node' type' = nodes.flag node' type' := by
  rw [Nodes.setFlag]
  dsimp only
  by_cases hnode : node' = node
  · subst hnode
    rw [update_self, update_of_ne fun htype => h ⟨rfl, htype.symm⟩]
  · rw [update_of_ne hnode]

/-- A listen of `t` on a node: its list is allocated if needed, and `t` added. -/
def Nodes.addThread (s : Nodes T N) (node : N) (type : SelType) (t : T) (malloc : Bool) :
    Bool × Nodes T N :=
  let (failed, list) :=
    vfsIntSelectAddThread ((s.list node type).getD .empty) t type.maxAllowed malloc
  (failed, s.setList node type list)

/-- The end of a listen. The calls only end listens that have begun, so the list is there
(`listed_at_turn`). -/
def Nodes.remThread (s : Nodes T N) (node : N) (type : SelType) (t : T) : Nodes T N :=
  match s.list node type with
  | none => s
  | some list => s.setList node type (vfsIntSelectRemThread list t)

end GetType

open List

variable {T N : Type} {list : SelectList T} {t : T} {maxAllowed : ℤ} {malloc : Bool}
  {threads : List (Option T)}

theorem addThread_taken (h : findPlace t maxAllowed 0 list.threads = .taken threads) :
    let r := vfsIntSelectAddThread list t maxAllowed malloc
    r.1 = false ∧ r.2.threads = threads := by
  unfold vfsIntSelectAddThread
  split
  case h_1 places hplaces =>
    obtain rfl := Place.taken.inj (hplaces.symm.trans h)
    exact ⟨rfl, rfl⟩
  case h_2 hfull => exact absurd (hfull.symm.trans h) (by simp)
  case h_3 hnone => exact absurd (hnone.symm.trans h) (by simp)

theorem addThread_full (h : findPlace t maxAllowed 0 list.threads = .full) :
    vfsIntSelectAddThread list t maxAllowed malloc = (true, list) := by
  unfold vfsIntSelectAddThread
  split
  case h_1 places hplaces => exact absurd (hplaces.symm.trans h) (by simp)
  case h_2 => rfl
  case h_3 hnone => exact absurd (hnone.symm.trans h) (by simp)

theorem findPlace_limited (type : SelType) (place : Option T) (places : List (Option T)) :
    findPlace t type.maxAllowed 0 (place :: places) =
      if place = none then .taken (some t :: places) else .full := by
  cases place with
  | none => rfl
  | some u =>
    rw [findPlace, if_pos, if_neg (some_ne_none u)]
    cases type
    all_goals decide

theorem addThread_limited (list : SelectList T) (type : SelType) (t : T) (malloc : Bool) :
    let r := vfsIntSelectAddThread list t type.maxAllowed malloc
    (∃ places, list.threads = none :: places ∧ r.1 = false ∧ r.2.threads = some t :: places) ∨
      (list.threads.head? ≠ some none ∧ r = (true, list)) := by
  obtain ⟨place, places, hthreads⟩ := exists_cons_of_ne_nil list.firstEnt
  have hplace := findPlace_limited (t := t) type place places
  rw [← hthreads] at hplace
  by_cases hfree : place = none
  · rw [if_pos hfree] at hplace
    exact .inl ⟨places, hfree ▸ hthreads, addThread_taken hplace⟩
  · rw [if_neg hfree] at hplace
    refine .inr ⟨?_, addThread_full hplace⟩
    rw [hthreads, head?_cons]
    exact mt some_inj.mp hfree

variable [DecidableEq T]

theorem count_dropBlock {start : ℕ}
    (hempty : ((threads.drop start).take numThreadsPerAlloc).all Option.isNone) (t : T) :
    (dropBlock threads start).count (some t) = threads.count (some t) := by
  have hblock : ((threads.drop start).take numThreadsPerAlloc).count (some t) = 0 := by
    rw [count_eq_zero]
    intro hmem
    exact absurd (all_eq_true.mp hempty _ hmem) (by simp)
  have hsplit : threads.count (some t) =
      (threads.take start).count (some t) + ((threads.drop start).count (some t)) := by
    rw [← count_append, take_append_drop]
  have hrest : (threads.drop start).count (some t) =
      ((threads.drop start).take numThreadsPerAlloc).count (some t) +
        (threads.drop (start + numThreadsPerAlloc)).count (some t) := by
    rw [← drop_drop, ← count_append, take_append_drop]
  rw [dropBlock, count_append, hsplit, hrest, hblock, zero_add]

theorem count_clearPlace {i : ℕ} (hi : i < threads.length) (t : T) :
    (clearPlace threads i).count (some t) =
      threads.count (some t) - if threads[i] = some t then 1 else 0 := by
  have hset : (threads.set i none).count (some t) =
      threads.count (some t) - if threads[i] = some t then 1 else 0 := by
    simp [count_set hi]
  rw [clearPlace]
  split
  · rename_i h
    rw [count_dropBlock h.2, hset]
  · exact hset

theorem count_remThread (list : SelectList T) (t u : T) :
    (vfsIntSelectRemThread list u).threads.count (some t) =
      list.threads.count (some t) - if u = t then 1 else 0 := by
  rw [vfsIntSelectRemThread]
  split
  · rename_i h
    rw [count_clearPlace h, getElem_idxOf h]
    simp only [some_inj]
  rename_i h
  split_ifs with heq
  · subst heq
    rw [idxOf_lt_length_iff, ← count_eq_zero] at h
    rw [h]
  · rfl

def listens (s : Nodes T N) (t : T) (node : N) (type : SelType) : ℕ :=
  match s.list node type with
  | none => 0
  | some list => list.threads.count (some t)

def FirstFree (s : Nodes T N) (node : N) (type : SelType) : Prop :=
  ((s.list node type).getD .empty).threads.head? = some none

instance (s : Nodes T N) (node : N) (type : SelType) : Decidable (FirstFree s node type) :=
  inferInstanceAs (Decidable (_ = _))

theorem listens_getD (s : Nodes T N) (t : T) (node : N) (type : SelType) :
    listens s t node type = ((s.list node type).getD .empty).threads.count (some t) := by
  rw [listens]
  cases s.list node type with
  | none => rfl
  | some list => rfl

section

variable [DecidableEq N] (s : Nodes T N) (node : N) (type : SelType)
include s node type

theorem listens_setList (list : SelectList T) (t : T) (node' : N) (type' : SelType) :
    listens (s.setList node type list) t node' type' =
      if node' = node ∧ type' = type then list.threads.count (some t)
      else listens s t node' type' := by
  rw [listens, listens, Nodes.setList]
  by_cases hnode : node' = node
  · subst hnode
    by_cases htype : type' = type
    · subst htype
      simp
    · simp [htype]
  · simp [hnode]

omit [DecidableEq T] in
theorem addThread_fails (t : T) (malloc : Bool) :
    (s.addThread node type t malloc).1 = true ↔ ¬ FirstFree s node type := by
  rw [Nodes.addThread, FirstFree]
  rcases addThread_limited ((s.list node type).getD .empty) type t malloc with
    ⟨places, hthreads, hplaced, -⟩ | ⟨htaken, hfull⟩
  · simp [hplaced, hthreads]
  · simp [hfull, htaken]

theorem listens_addThread (u : T) (malloc : Bool) (t : T) (node' : N) (type' : SelType) :
    listens (s.addThread node type u malloc).2 t node' type' = listens s t node' type' +
      if node' = node ∧ type' = type ∧ u = t ∧ FirstFree s node type then 1 else 0 := by
  rw [Nodes.addThread, listens_setList]
  by_cases hhere : node' = node ∧ type' = type
  · obtain ⟨rfl, rfl⟩ := hhere
    rw [if_pos ⟨rfl, rfl⟩, listens_getD]
    rcases addThread_limited ((s.list node' type').getD .empty) type' u malloc with
      ⟨places, hthreads, -, hplaced⟩ | ⟨htaken, hfull⟩
    · have hfree : FirstFree s node' type' := congrArg head? hthreads
      rw [hplaced, hthreads]
      simp [count_cons, hfree]
    · rw [hfull, if_neg fun h => htaken h.2.2.2, add_zero]
  · rw [if_neg hhere, if_neg fun h => hhere ⟨h.1, h.2.1⟩, add_zero]

theorem listens_remThread (u t : T) (node' : N) (type' : SelType) :
    listens (s.remThread node type u) t node' type' = listens s t node' type' -
      if node' = node ∧ type' = type ∧ u = t then 1 else 0 := by
  rw [Nodes.remThread]
  split
  · rename_i hlist
    split_ifs with h
    · obtain ⟨rfl, rfl, -⟩ := h
      simp [listens, hlist]
    · rfl
  rename_i list hlist
  rw [listens_setList]
  by_cases hhere : node' = node ∧ type' = type
  · obtain ⟨rfl, rfl⟩ := hhere
    rw [if_pos ⟨rfl, rfl⟩, count_remThread, listens, hlist]
    simp
  · rw [if_neg hhere, if_neg fun h => hhere ⟨h.1, h.2.1⟩, Nat.sub_zero]

theorem remThread_flag (u : T) : (s.remThread node type u).flag = s.flag := by
  rw [Nodes.remThread]
  split
  · rfl
  · rfl

end

def fdSetSize : ℕ := 128

abbrev FdSet := ℕ → Bool

variable (fd : ℕ) (set : FdSet)

def fdIsSet : Bool := if fd > fdSetSize then false else set fd

def fdClr : FdSet :=
  if fd > fdSetSize then set else update set fd false

def fdSet : FdSet :=
  if fd > fdSetSize then set else update set fd true

theorem fdIsSet_fdClr (i : ℕ) :
    fdIsSet i (fdClr fd set) = if i = fd then false else fdIsSet i set := by
  rw [fdIsSet, fdIsSet, fdClr]
  by_cases hfd : fd > fdSetSize
  · split_ifs with hi heq heq
    · rfl
    · rfl
    · omega
    · rfl
  rw [if_neg hfd, update_apply]
  split_ifs with hi heq heq
  · rfl
  · rfl
  · rfl
  · rfl

theorem fdIsSet_fdSet (i : ℕ) (hset : fdIsSet fd set = true) :
    fdIsSet i (fdSet fd set) = fdIsSet i set := by
  rw [fdIsSet] at hset
  split at hset
  · cases hset
  · rename_i hfd
    rw [fdSet, if_neg hfd, ← hset, update_eq_self]

variable [DecidableEq N]

def fdNode (s : Vfs N) (isKernel : Bool) (i : ℕ) : Option N :=
  (vfsGetHandle s ((if isKernel then i ||| kernelFlag else i : ℕ) : ℤ)).bind fun slot =>
    (s.handle slot).node

structure Pass (T N : Type) where
  nodes : Nodes T N
  handles : FdSet
  numFlagged : ℕ

/-- A round of the loop in `VFS_int_Select_Register` -/
def registerTurn (nodeOf : ℕ → Option N) (t : T) (malloc : Bool) (type : SelType) (i : ℕ)
    (p : Pass T N) : Pass T N :=
  if ¬ fdIsSet i p.handles then p
  else
    match nodeOf i with
    | none =>
      -- Bad FD counts as an error
      if type = .error then { p with numFlagged := p.numFlagged + 1 }
      else { p with handles := fdClr i p.handles }
    | some node =>
      let (failed, nodes) := p.nodes.addThread node type t malloc
      -- Oops, error (or just no space)
      let handles := if failed then fdClr i p.handles else p.handles
      if nodes.flag node type = type.wanted then ⟨nodes, handles, p.numFlagged + 1⟩
      else ⟨nodes, handles, p.numFlagged⟩

/-- A round of the loop in `VFS_int_Select_Deregister` -/
def deregisterTurn (nodeOf : ℕ → Option N) (t : T) (type : SelType) (i : ℕ) (p : Pass T N) :
    Pass T N :=
  if ¬ fdIsSet i p.handles then p
  else
    match nodeOf i with
    | none =>
      if type = .error then { p with numFlagged := p.numFlagged + 1 }
      else { p with handles := fdClr i p.handles }
    | some node =>
      let nodes := p.nodes.remThread node type t
      if nodes.flag node type = type.wanted then
        ⟨nodes, fdSet i p.handles, p.numFlagged + 1⟩
      else ⟨nodes, fdClr i p.handles, p.numFlagged⟩

inductive Move (T N : Type) where
  | mark (node : N) (type : SelType) (value : Bool)
  | add (u : T) (node : N) (type : SelType) (malloc : Bool)
  | rem (u : T) (node : N) (type : SelType)

/-- A move that is not one of `t`'s own listens -/
def Move.Foreign (t : T) : Move T N → Prop
  | .mark _ _ _ => True
  | .add u _ _ _ => u ≠ t
  | .rem u _ _ => u ≠ t

def Nodes.move (s : Nodes T N) : Move T N → Nodes T N
  | .mark node type value => s.setFlag node type value
  | .add u node type malloc => (s.addThread node type u malloc).2
  | .rem u node type => s.remThread node type u

theorem move_listens {m : Move T N} (hforeign : m.Foreign t) (s : Nodes T N) :
    listens (s.move m) t = listens s t := by
  funext node' type'
  cases m with
  | mark node type value => rfl
  | add u node type malloc =>
    have hu : u ≠ t := hforeign
    rw [Nodes.move, listens_addThread, if_neg fun h => hu h.2.2.1, add_zero]
  | rem u node type =>
    have hu : u ≠ t := hforeign
    rw [Nodes.move, listens_remThread, if_neg fun h => hu h.2.2, Nat.sub_zero]

theorem moves_listens {ms : List (Move T N)} (hforeign : ∀ m ∈ ms, m.Foreign t) (s : Nodes T N) :
    listens (ms.foldl Nodes.move s) t = listens s t := by
  induction ms generalizing s with
  | nil => rfl
  | cons m ms ih =>
    rw [foldl_cons, ih fun m' hm' => hforeign m' (mem_cons_of_mem m hm')]
    exact move_listens (hforeign m mem_cons_self) s

/-- The moves of other threads in front of each turn of one of the six passes, and while the
caller waits -/
structure Schedule (N : Type) (t : T) where
  registering : SelType → ℕ → List (Move T N)
  waiting : List (Move T N)
  deregistering : SelType → ℕ → List (Move T N)
  foreign_registering : ∀ type i, ∀ m ∈ registering type i, m.Foreign t
  foreign_waiting : ∀ m ∈ waiting, m.Foreign t
  foreign_deregistering : ∀ type i, ∀ m ∈ deregistering type i, m.Foreign t

variable (turn : ℕ → Pass T N → Pass T N) (moves : ℕ → List (Move T N))

def turnAt (i : ℕ) (p : Pass T N) :
    Pass T N :=
  turn i { p with nodes := (moves i).foldl Nodes.move p.nodes }

def rounds : ℕ → Pass T N → Pass T N
  | 0, p => p
  | i + 1, p => turnAt turn moves i (rounds i p)

structure Request (T N : Type) where
  vfs : Vfs N
  isKernel : Bool
  maxHandle : ℤ
  t : T
  malloc : Bool
  schedule : Schedule N t

def Request.nodeOf (r : Request T N) : ℕ → Option N := fdNode r.vfs r.isKernel

/-- A call under way: the nodes, the sets passed (a null pointer is `none`) and the sum of the
passes' results -/
structure Call (T N : Type) where
  nodes : Nodes T N
  sets : SelType → Option FdSet
  ret : ℕ

variable (r : Request T N)

def Request.handles : ℕ := r.maxHandle.toNat

def nodesAt (turn : ℕ → Pass T N → Pass T N) (moves : ℕ → List (Move T N))
    (nodes : Nodes T N) (set : FdSet) (i : ℕ) : Nodes T N :=
  (moves i).foldl Nodes.move (rounds turn moves i ⟨nodes, set, 0⟩).nodes

def passOver (turn : SelType → ℕ → Pass T N → Pass T N) (moves : SelType → ℕ → List (Move T N))
    (type : SelType) (c : Call T N) : Call T N :=
  match c.sets type with
  | none => c
  | some set =>
    let p := rounds (turn type) (moves type) r.handles ⟨c.nodes, set, 0⟩
    ⟨p.nodes, update c.sets type (some p.handles), c.ret + p.numFlagged⟩

def vfsIntSelectRegister (type : SelType) (c : Call T N) : Call T N :=
  passOver r (registerTurn r.nodeOf r.t r.malloc) r.schedule.registering type c

def vfsIntSelectDeregister (type : SelType) (c : Call T N) : Call T N :=
  passOver r (deregisterTurn r.nodeOf r.t) r.schedule.deregistering type c

def inFrontOf (pass : SelType → Call T N → Call T N) : SelType → Call T N → Call T N
  | .read, c => c
  | .write, c => pass .read c
  | .error, c => pass .write (pass .read c)

def allSets (pass : SelType → Call T N → Call T N) (c : Call T N) : Call T N :=
  pass .error (inFrontOf pass .error c)

/-- `VFS_Select` between registering and deregistering: it waits unless some descriptor was
flagged. -/
def selectWait (c : Call T N) : Call T N :=
  { c with
    nodes := if c.ret > 0 then c.nodes else r.schedule.waiting.foldl Nodes.move c.nodes
    ret := 0 }

def vfsSelect (nodes : Nodes T N) (sets : SelType → Option FdSet) : Call T N :=
  allSets (vfsIntSelectDeregister r)
    (selectWait r (allSets (vfsIntSelectRegister r) ⟨nodes, sets, 0⟩))

end VfsSelect
