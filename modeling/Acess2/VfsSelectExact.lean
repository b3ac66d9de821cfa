import Acess2.VfsSelect
import Acess2.Tallies
import Acess2.ThreadsModel

/-! What `VFS_Select` returns. The read and write lists of a node take one listener, so a
descriptor is reported if it found that place free and its flag is there in the end; the
places a call takes are counted by the descriptors left in its sets, and given back. -/
namespace VfsSelectExact

open Option Tallies VfsHandles VfsSelect

section Turns

variable {T N : Type} [DecidableEq T] [DecidableEq N]

section

variable (nodeOf : ℕ → Option N) (type : SelType) (s : Nodes T N) (i : ℕ)

/-- What stays in its set when registered: an invalid descriptor in the error set, a valid one if
the first place of its node's list is free -/
def Registers : Prop :=
  match nodeOf i with
  | none => type = .error
  | some node => FirstFree s node type

instance :
    Decidable (Registers nodeOf type s i) := by
  unfold Registers
  cases nodeOf i
  all_goals infer_instance

end

variable {i : ℕ} {node : N} {s : Nodes T N} {P : Prop} {set : FdSet} {p : Pass T N}
  {nodeOf : ℕ → Option N}

omit [DecidableEq T] [DecidableEq N] in
theorem registers_some (h : nodeOf i = some node) {type : SelType} :
    Registers nodeOf type s i ↔ FirstFree s node type := by
  rw [Registers, h]

/-- What stays in its set when deregistered: an invalid descriptor in the error set, a valid one if
its node's flag has the wanted value -/
def Flagged (nodeOf : ℕ → Option N) (type : SelType) (s : Nodes T N) (i : ℕ) : Prop :=
  match nodeOf i with
  | none => type = .error
  | some node => s.flag node type = type.wanted

instance (nodeOf : ℕ → Option N) (type : SelType) (s : Nodes T N) (i : ℕ) :
    Decidable (Flagged nodeOf type s i) := by
  unfold Flagged
  cases nodeOf i
  all_goals infer_instance

omit [DecidableEq T] [DecidableEq N] in
theorem flagged_none (h : nodeOf i = none) {type : SelType}
    : Flagged nodeOf type s i ↔ type = .error := by
  rw [Flagged, h]

omit [DecidableEq T] [DecidableEq N] in
theorem flagged_some (h : nodeOf i = some node) {type : SelType} :
    Flagged nodeOf type s i ↔ s.flag node type = type.wanted := by
  rw [Flagged, h]

def Decides (turn : ℕ → Pass T N → Pass T N) (Stays : Nodes T N → ℕ → Prop) : Prop :=
  ∀ i p j, fdIsSet j (turn i p).handles = true ↔
    fdIsSet j p.handles = true ∧ (j = i → Stays p.nodes i)

variable (nodeOf : ℕ → Option N) (t : T) (malloc : Bool) (type : SelType)

theorem clr_decides (hP : ¬ P) (j : ℕ) :
    fdIsSet j (fdClr i set) = true ↔ fdIsSet j set = true ∧ (j = i → P) := by
  rw [fdIsSet_fdClr]
  split_ifs with heq
  · exact ⟨fun h => (by cases h), fun h => absurd (h.2 heq) hP⟩
  · exact ⟨fun h => ⟨h, fun h' => absurd h' heq⟩, fun h => h.1⟩

theorem kept_decides (hP : fdIsSet i set = true → P) (j : ℕ) :
    fdIsSet j set = true ↔ fdIsSet j set = true ∧ (j = i → P) :=
  ⟨fun h => ⟨h, fun heq => hP (heq ▸ h)⟩, fun h => h.1⟩

omit [DecidableEq T] in
theorem registerTurn_decides :
    Decides (registerTurn (N := N) nodeOf t malloc type) (Registers nodeOf type) := by
  intro i p j
  rw [registerTurn, Registers]
  by_cases hset : fdIsSet i p.handles = true
  · cases hnode : nodeOf i with
    | none =>
      split_ifs with htype
      · exact kept_decides (fun _ => htype) j
      · exact clr_decides htype j
    | some node =>
      have hfails := addThread_fails p.nodes node type t malloc
      dsimp only
      by_cases hfree : FirstFree p.nodes node type
      · have hplaced : (p.nodes.addThread node type t malloc).1 = false := by
          simpa [hfree] using hfails
        rw [hplaced, if_neg Bool.false_ne_true]
        split_ifs
        all_goals exact kept_decides (fun _ => hfree) j
      · rw [hfails.mpr hfree, if_pos rfl]
        split_ifs
        all_goals exact clr_decides hfree j
  · rw [if_pos hset]
    exact kept_decides (fun h => absurd h hset) j

theorem deregisterTurn_decides :
    Decides (deregisterTurn (N := N) nodeOf t type) (Flagged nodeOf type) := by
  intro i p j
  rw [deregisterTurn, Flagged]
  by_cases hset : fdIsSet i p.handles = true
  · cases hnode : nodeOf i with
    | none =>
      split_ifs with htype
      · exact kept_decides (fun _ => htype) j
      · exact clr_decides htype j
    | some node =>
      dsimp only
      rw [remThread_flag]
      split_ifs with hflag
      · rw [fdIsSet_fdSet i p.handles j hset]
        exact kept_decides (fun _ => hflag) j
      · exact clr_decides hflag j
  · rw [if_pos hset]
    exact kept_decides (fun h => absurd h hset) j

omit [DecidableEq T] in
theorem registerTurn_nodes (hset : fdIsSet i p.handles = true) :
    (registerTurn nodeOf t malloc type i p).nodes = (nodeOf i).elim p.nodes fun node =>
      (p.nodes.addThread node type t malloc).2 := by
  rw [registerTurn, if_neg (not_not_intro hset)]
  cases nodeOf i with
  | none =>
    split_ifs
    all_goals rfl
  | some node =>
    dsimp only
    split
    all_goals rfl

theorem deregisterTurn_nodes (hset : fdIsSet i p.handles = true) :
    (deregisterTurn nodeOf t type i p).nodes = (nodeOf i).elim p.nodes fun node =>
      p.nodes.remThread node type t := by
  rw [deregisterTurn, if_neg (not_not_intro hset)]
  cases nodeOf i with
  | none =>
    split_ifs
    all_goals rfl
  | some node =>
    dsimp only
    split_ifs
    all_goals rfl

section

variable (i) (p) (node' : N) (type' : SelType)

theorem registerTurn_listens : listens (registerTurn nodeOf t malloc type i p).nodes t node' type' =
      listens p.nodes t node' type' + if type' = type ∧ fdIsSet i p.handles = true ∧
        Registers nodeOf type p.nodes i ∧ nodeOf i = some node' then 1 else 0 := by
  by_cases hset : fdIsSet i p.handles = true
  · rw [registerTurn_nodes nodeOf t malloc type hset]
    cases hnode : nodeOf i with
    | none =>
      rw [if_neg fun h => (by cases h.2.2.2)]
      rfl
    | some node =>
      rw [elim_some, listens_addThread]
      apply congrArg (listens p.nodes t node' type' + ·)
      apply if_congr _ rfl rfl
      simp only [registers_some hnode, hset, some_inj]
      tauto
  · rw [registerTurn, if_pos hset, if_neg fun h => hset h.2.1, add_zero]

theorem deregisterTurn_listens : listens (deregisterTurn nodeOf t type i p).nodes t node' type' =
      listens p.nodes t node' type' - if type' = type ∧ fdIsSet i p.handles = true ∧
        nodeOf i = some node' then 1 else 0 := by
  by_cases hset : fdIsSet i p.handles = true
  · rw [deregisterTurn_nodes nodeOf t type hset]
    cases nodeOf i with
    | none =>
      rw [if_neg fun h => (by cases h.2.2)]
      rfl
    | some node =>
      rw [elim_some, listens_remThread]
      apply congrArg (listens p.nodes t node' type' - ·)
      apply if_congr _ rfl rfl
      simp only [hset, some_inj]
      tauto
  · rw [deregisterTurn, if_pos hset, if_neg fun h => hset h.2.1, Nat.sub_zero]

end

theorem deregisterTurn_numFlagged (i : ℕ) (p : Pass T N) :
    (deregisterTurn nodeOf t type i p).numFlagged = p.numFlagged +
      if fdIsSet i p.handles = true ∧ Flagged nodeOf type p.nodes i then 1 else 0 := by
  rw [deregisterTurn]
  by_cases hset : fdIsSet i p.handles = true
  · rw [if_neg (not_not_intro hset)]
    cases hnode : nodeOf i with
    | none =>
      simp only [flagged_none hnode, hset, true_and]
      split_ifs
      all_goals rfl
    | some node =>
      simp only [flagged_some hnode, hset, true_and, remThread_flag]
      split_ifs
      all_goals rfl
  · rw [if_pos hset, if_neg fun h => hset h.1, add_zero]

end Turns

section Rounds

variable {T N : Type} [DecidableEq T] [DecidableEq N] {turn : ℕ → Pass T N → Pass T N}
  {moves : ℕ → List (Move T N)} {Stays : Nodes T N → ℕ → Prop} {nodes : Nodes T N} {set : FdSet}
  {j n : ℕ}

theorem rounds_later (hturn : Decides turn Stays) (hj : n ≤ j) :
    fdIsSet j (rounds turn moves n ⟨nodes, set, 0⟩).handles = fdIsSet j set := by
  induction n with
  | zero => rfl
  | succ n ih =>
    rw [← ih (by omega), Bool.eq_iff_iff, rounds, turnAt]
    refine (hturn n _ j).trans ⟨fun h => h.1, fun h => ⟨h, fun heq => ?_⟩⟩
    omega

theorem rounds_earlier (hturn : Decides turn Stays) (hj : j < n) :
    fdIsSet j (rounds turn moves n ⟨nodes, set, 0⟩).handles = true ↔
      fdIsSet j set = true ∧ Stays (nodesAt turn moves nodes set j) j := by
  induction n with
  | zero => omega
  | succ n ih =>
    rw [rounds, turnAt]
    refine (hturn n _ j).trans ?_
    rcases Nat.lt_succ_iff_lt_or_eq.mp hj with hlt | rfl
    · rw [ih hlt]
      exact ⟨fun h => h.1, fun h => ⟨h, fun heq => (by omega)⟩⟩
    · rw [rounds_later hturn (Nat.le_refl j)]
      exact ⟨fun h => ⟨h.1, h.2 rfl⟩, fun h => ⟨h.1, fun _ => h.2⟩⟩

variable {nodeOf : ℕ → Option N} {t : T} {malloc : Bool} {type : SelType}
  (hforeign : ∀ i, ∀ m ∈ moves i, m.Foreign t)
include hforeign

theorem register_listens (n : ℕ) (node : N) :
    listens (rounds (registerTurn nodeOf t malloc type) moves n ⟨nodes, set, 0⟩).nodes t node type =
      listens nodes t node type + tally (fun i => fdIsSet i set = true ∧
        Registers nodeOf type (nodesAt (registerTurn nodeOf t malloc type) moves nodes set i) i ∧
        nodeOf i = some node) id n := by
  induction n with
  | zero => rfl
  | succ n ih =>
    -- turn `n` still finds its descriptor as the caller passed it
    have hlater : fdIsSet n (rounds (registerTurn nodeOf t malloc type) moves n
        ⟨nodes, set, 0⟩).handles = fdIsSet n set :=
      rounds_later (registerTurn_decides nodeOf t malloc type) (le_refl n)
    rw [rounds, turnAt, registerTurn_listens, moves_listens (hforeign n), ih, tally, add_assoc]
    apply congrArg (listens nodes t node type + ·)
    apply congrArg (tally _ id n + ·)
    apply if_congr _ rfl rfl
    rw [hlater]
    exact ⟨fun h => h.2, fun h => ⟨rfl, h⟩⟩

theorem deregister_listens (n : ℕ) (node : N) :
    listens (rounds (deregisterTurn nodeOf t type) moves n ⟨nodes, set, 0⟩).nodes t node type =
      listens nodes t node type -
        tally (fun i => fdIsSet i set = true ∧ nodeOf i = some node) id n := by
  induction n with
  | zero => rfl
  | succ n ih =>
    have hlater : fdIsSet n (rounds (deregisterTurn nodeOf t type) moves n
        ⟨nodes, set, 0⟩).handles = fdIsSet n set :=
      rounds_later (deregisterTurn_decides nodeOf t type) (Nat.le_refl n)
    rw [rounds, turnAt, deregisterTurn_listens, moves_listens (hforeign n), ih, tally, Nat.sub_sub]
    apply congrArg (listens nodes t node type - ·)
    apply congrArg (tally _ id n + ·)
    apply if_congr _ rfl rfl
    rw [hlater]
    exact ⟨fun h => h.2, fun h => ⟨rfl, h⟩⟩

theorem rounds_other {type' : SelType} {node : N} (hother : ∀ i p,
      listens (turn i p).nodes t node type' = listens p.nodes t node type') (n : ℕ) :
    listens (rounds turn moves n ⟨nodes, set, 0⟩).nodes t node type' =
      listens nodes t node type' := by
  induction n with
  | zero => rfl
  | succ n ih => rw [rounds, turnAt, hother, moves_listens (hforeign n), ih]

omit hforeign

theorem deregister_numFlagged (n : ℕ) :
    (rounds (deregisterTurn nodeOf t type) moves n ⟨nodes, set, 0⟩).numFlagged =
      tally (fun i => fdIsSet i
        (rounds (deregisterTurn nodeOf t type) moves n ⟨nodes, set, 0⟩).handles = true) id n := by
  have hstays := deregisterTurn_decides nodeOf t type
  have hcount : (rounds (deregisterTurn nodeOf t type) moves n ⟨nodes, set, 0⟩).numFlagged =
      tally (fun i => fdIsSet i set = true ∧ Flagged nodeOf type
        (nodesAt (deregisterTurn nodeOf t type) moves nodes set i) i) id n := by
    induction n with
    | zero => rfl
    | succ n ih =>
      rw [rounds, turnAt, deregisterTurn_numFlagged, ih, tally]
      apply congrArg (tally _ id n + ·)
      apply if_congr _ rfl rfl
      rw [rounds_later hstays (le_refl n)]
      rfl
  rw [hcount]
  apply tally_congr
  exact fun i hi => (rounds_earlier hstays hi).symm

end Rounds

variable {T N : Type} [DecidableEq T] [DecidableEq N] {r : Request T N} {c : Call T N}
  {turn : SelType → ℕ → Pass T N → Pass T N} {moves : SelType → ℕ → List (Move T N)}
  {type type' : SelType} {node : N}

omit [DecidableEq T] [DecidableEq N] in
/-- What only the pass over one type of set changes is left alone in front of it and behind. -/
theorem allSets_own {α : Type} (pass : SelType → Call T N → Call T N) {Q : Call T N → α}
    (hpass : ∀ type' c, type ≠ type' → Q (pass type' c) = Q c) (c : Call T N) :
    Q (inFrontOf pass type c) = Q c ∧
      Q (allSets pass c) = Q (pass type (inFrontOf pass type c)) := by
  rw [allSets]
  cases type with
  | read =>
    refine ⟨rfl, ?_⟩
    exact (hpass .error _ (by decide)).trans (hpass .write (pass .read c) (by decide))
  | write =>
    exact ⟨hpass .read c (by decide), hpass .error _ (by decide)⟩
  | error =>
    refine ⟨?_, rfl⟩
    exact (hpass .write (pass .read c) (by decide)).trans (hpass .read c (by decide))

theorem passOver_sets_other (hother : type ≠ type') :
    (passOver r turn moves type' c).sets type = c.sets type := by
  rw [passOver]
  split
  · rfl
  · exact Function.update_of_ne hother _ _

theorem passOver_sets (type : SelType) :
    (passOver r turn moves type c).sets type = (c.sets type).map fun set =>
      (rounds (turn type) (moves type) r.handles ⟨c.nodes, set, 0⟩).handles := by
  rw [passOver]
  split
  · rename_i hset
    rw [hset]
    rfl
  · rename_i set hset
    rw [hset]
    exact Function.update_self _ _ _

theorem passes_sets (r : Request T N) (c : Call T N) (type : SelType) :
    (inFrontOf (passOver r turn moves) type c).sets type = c.sets type ∧
      (allSets (passOver r turn moves) c).sets type = (c.sets type).map fun set =>
        (rounds (turn type) (moves type) r.handles
          ⟨(inFrontOf (passOver r turn moves) type c).nodes, set, 0⟩).handles := by
  obtain ⟨hfront, hbehind⟩ := allSets_own (passOver r turn moves)
    (Q := fun c => c.sets type) (fun type' c hother => passOver_sets_other hother) c
  refine ⟨hfront, ?_⟩
  rw [hbehind, passOver_sets, hfront]

def onNode (r : Request T N) (node : N) : Option FdSet → ℕ
  | none => 0
  | some set => tally (fun i => fdIsSet i set = true ∧ r.nodeOf i = some node) id r.handles

theorem passOver_listens_other (hforeign : ∀ i, ∀ m ∈ moves type' i, m.Foreign r.t)
    (hother : ∀ i p, listens (turn type' i p).nodes r.t node type = listens p.nodes r.t node type)
    (c : Call T N) :
    listens (passOver r turn moves type' c).nodes r.t node type =
      listens c.nodes r.t node type := by
  rw [passOver]
  split
  · rfl
  · exact rounds_other hforeign hother r.handles

theorem registered_other (hother : type ≠ type') (c : Call T N) (node : N) :
    listens (vfsIntSelectRegister r type' c).nodes r.t node type =
      listens c.nodes r.t node type := by
  refine passOver_listens_other (r.schedule.foreign_registering type') (fun i p => ?_) c
  rw [registerTurn_listens, if_neg fun h => hother h.1, add_zero]

theorem deregistered_other (hother : type ≠ type') (c : Call T N) (node : N) :
    listens (vfsIntSelectDeregister r type' c).nodes r.t node type =
      listens c.nodes r.t node type := by
  refine passOver_listens_other (r.schedule.foreign_deregistering type') (fun i p => ?_) c
  rw [deregisterTurn_listens, if_neg fun h => hother h.1, Nat.sub_zero]

theorem registered_listens (hfresh : listens c.nodes r.t node type = 0) :
    listens (allSets (vfsIntSelectRegister r) c).nodes r.t node type =
      onNode r node ((allSets (vfsIntSelectRegister r) c).sets type) := by
  obtain ⟨hfront, hbehind⟩ := allSets_own (vfsIntSelectRegister r)
    (Q := fun c => listens c.nodes r.t node type)
    (fun type' c hother => registered_other hother c node) c
  obtain ⟨hsets, hafter⟩ : (inFrontOf (vfsIntSelectRegister r) type c).sets type = _ ∧
      (allSets (vfsIntSelectRegister r) c).sets type = _ := passes_sets r c type
  rw [hbehind, hafter, vfsIntSelectRegister, passOver, hsets]
  cases c.sets type with
  | none => exact hfront.trans hfresh
  | some set =>
    rw [map_some, onNode]
    rw [register_listens (r.schedule.foreign_registering type), hfront, hfresh, zero_add]
    apply tally_congr
    intro i hi
    rw [id_eq, rounds_earlier (registerTurn_decides r.nodeOf r.t r.malloc type) hi, and_assoc]
    rfl

theorem deregistered_listens (c : Call T N) (node : N) (type : SelType) :
    listens (allSets (vfsIntSelectDeregister r) c).nodes r.t node type =
      listens c.nodes r.t node type - onNode r node (c.sets type) := by
  obtain ⟨hfront, hbehind⟩ := allSets_own (vfsIntSelectDeregister r)
    (Q := fun c => listens c.nodes r.t node type)
    (fun type' c hother => deregistered_other hother c node) c
  have hsets : (inFrontOf (vfsIntSelectDeregister r) type c).sets type = _ :=
    (passes_sets r c type).1
  rw [hbehind, vfsIntSelectDeregister, passOver, hsets]
  cases c.sets type with
  | none => exact hfront
  | some set =>
    rw [deregister_listens (r.schedule.foreign_deregistering type), hfront, onNode]

theorem selectWait_listens (c : Call T N) :
    listens (selectWait r c).nodes r.t = listens c.nodes r.t := by
  rw [selectWait]
  split_ifs
  · rfl
  · exact moves_listens r.schedule.foreign_waiting c.nodes

def left (r : Request T N) : Option FdSet → ℕ
  | none => 0
  | some set => tally (fun i => fdIsSet i set = true) id r.handles

theorem deregister_ret (type : SelType) (c : Call T N) : (vfsIntSelectDeregister r type c).ret =
      c.ret + left r ((vfsIntSelectDeregister r type c).sets type) := by
  rw [vfsIntSelectDeregister, passOver_sets, passOver]
  cases c.sets type with
  | none => rfl
  | some set => exact congrArg (c.ret + ·) (deregister_numFlagged r.handles)

theorem deregistered_ret (c : Call T N) : (allSets (vfsIntSelectDeregister r) c).ret = c.ret +
      left r ((allSets (vfsIntSelectDeregister r) c).sets .read) +
      left r ((allSets (vfsIntSelectDeregister r) c).sets .write) +
      left r ((allSets (vfsIntSelectDeregister r) c).sets .error) := by
  have hbehind (type : SelType) := (allSets_own (vfsIntSelectDeregister r)
    (Q := fun c => c.sets type) (fun type' c hother => passOver_sets_other hother) c).2
  have hwrite : (inFrontOf (vfsIntSelectDeregister r) .error c).ret = _ :=
    deregister_ret .write (inFrontOf (vfsIntSelectDeregister r) .write c)
  have hread : (inFrontOf (vfsIntSelectDeregister r) .write c).ret = _ := deregister_ret .read c
  rw [hbehind .read, hbehind .write, hbehind .error, allSets, deregister_ret, hwrite, hread]
  rfl

def waited (r : Request T N) (c : Call T N) : Call T N :=
  selectWait r (allSets (vfsIntSelectRegister r) c)

section

variable (r) (c) (type) (set : FdSet)

def registerFinds (i : ℕ) :
    Nodes T N :=
  nodesAt (registerTurn r.nodeOf r.t r.malloc type) (r.schedule.registering type)
    (inFrontOf (vfsIntSelectRegister r) type c).nodes set i

def registeredSet : FdSet :=
  (rounds (registerTurn r.nodeOf r.t r.malloc type) (r.schedule.registering type) r.handles
    ⟨(inFrontOf (vfsIntSelectRegister r) type c).nodes, set, 0⟩).handles

def deregisterFinds (i : ℕ) :
    Nodes T N :=
  nodesAt (deregisterTurn r.nodeOf r.t type) (r.schedule.deregistering type)
    (inFrontOf (vfsIntSelectDeregister r) type (waited r c)).nodes (registeredSet r c type set) i

/-- An invalid descriptor counts as an error; a valid one has the wanted flag when deregistered, and
for reading and writing found the first place free when registered. -/
def Reported (i : ℕ) : Prop :=
  match r.nodeOf i with
  | none => type = .error
  | some node =>
    (type = .error ∨ FirstFree (registerFinds r c type set i) node type) ∧
      (deregisterFinds r c type set i).flag node type = type.wanted

end

/-- Every valid descriptor of the error set finds a place. -/
def ErrorsPlaced (r : Request T N) (c : Call T N) : Prop :=
  ∀ set, c.sets .error = some set → ∀ i < r.handles, fdIsSet i set = true →
    ∀ node, r.nodeOf i = some node → FirstFree (registerFinds r c .error set i) node .error

/-- What `VFS_Select` leaves behind -/
structure Exact (r : Request T N) (before after : Call T N) : Prop where
  null : ∀ type, before.sets type = none → after.sets type = none
  reported : ∀ type set, before.sets type = some set → ∃ set', after.sets type = some set' ∧
    (∀ i < r.handles, fdIsSet i set' = true ↔ fdIsSet i set = true ∧ Reported r before type set i) ∧
    ∀ i ≥ r.handles, fdIsSet i set' = fdIsSet i set
  ret : after.ret = left r (after.sets .read) + left r (after.sets .write) +
    left r (after.sets .error)
  unlisted : ∀ node type, listens after.nodes r.t node type = 0

variable {nodes : Nodes T N} {sets : SelType → Option FdSet}

theorem vfsSelect_sets (type : SelType) :
    (vfsSelect r nodes sets).sets type = (sets type).map fun set =>
      (rounds (deregisterTurn r.nodeOf r.t type) (r.schedule.deregistering type) r.handles
        ⟨(inFrontOf (vfsIntSelectDeregister r) type (waited r ⟨nodes, sets, 0⟩)).nodes,
          registeredSet r ⟨nodes, sets, 0⟩ type set, 0⟩).handles := by
  have hwaited : (waited r ⟨nodes, sets, 0⟩).sets type =
      (sets type).map (registeredSet r ⟨nodes, sets, 0⟩ type) :=
    (passes_sets r ⟨nodes, sets, 0⟩ type).2
  refine (passes_sets r (waited r ⟨nodes, sets, 0⟩) type).2.trans ?_
  rw [hwaited, map_map]
  rfl

theorem reported_iff (herrors : ErrorsPlaced r c) {set : FdSet}
    (hset : c.sets type = some set) {i : ℕ} (hi : i < r.handles) (hin : fdIsSet i set = true) :
    Reported r c type set i ↔ Registers r.nodeOf type (registerFinds r c type set i) i ∧
      Flagged r.nodeOf type (deregisterFinds r c type set i) i := by
  rw [Reported, Registers, Flagged]
  cases hnode : r.nodeOf i with
  | none => exact (and_self_iff).symm
  | some node =>
    constructor
    · rintro ⟨rfl | hfree, hflag⟩
      · exact ⟨herrors set hset i hi hin node hnode, hflag⟩
      · exact ⟨hfree, hflag⟩
    · rintro ⟨hfree, hflag⟩
      exact ⟨.inr hfree, hflag⟩

theorem select_is_exact (hfresh : ∀ node type, listens nodes r.t node type = 0)
    (herrors : ErrorsPlaced r ⟨nodes, sets, 0⟩) :
    Exact r ⟨nodes, sets, 0⟩ (vfsSelect r nodes sets) := by
  constructor
  case null =>
    intro type hnone
    rw [vfsSelect_sets, show sets type = none from hnone]
    rfl
  case reported =>
    intro type set hset
    have hreg := registerTurn_decides (N := N) r.nodeOf r.t r.malloc type
    have hdereg := deregisterTurn_decides (N := N) r.nodeOf r.t type
    refine ⟨_, (vfsSelect_sets type).trans (congrArg _ hset), ?_, ?_⟩
    · intro i hi
      rw [rounds_earlier hdereg hi, registeredSet, rounds_earlier hreg hi, and_assoc]
      apply and_congr_right
      exact fun hin => (reported_iff herrors hset hi hin).symm
    · intro i hi
      rw [rounds_later hdereg hi, registeredSet, rounds_later hreg hi]
  case ret => exact (deregistered_ret _).trans (by rw [selectWait, Nat.zero_add]; rfl)
  case unlisted =>
    intro node type
    rw [vfsSelect, deregistered_listens, selectWait_listens, registered_listens (hfresh node type)]
    exact Nat.sub_self _

section Sample

def sampleVfs : Vfs Bool :=
  ⟨[], none, fun _ => 0, fun _ => ⟨none, none, 0, 0⟩,
    fun i => ⟨if i < 2 then some false else if i = 2 then some true else none, none, 0, 0⟩,
    4, by decide, ⟨0, 0⟩, none, none⟩

def sampleRequest : Request (Fin 2) Bool :=
  ⟨sampleVfs, false, 4, 0, true, ⟨fun _ _ => [], [.mark false .read true], fun _ _ => [],
    fun _ _ => List.forall_mem_nil _, by simp [Move.Foreign], fun _ _ => List.forall_mem_nil _⟩⟩

def sampleNodes : Nodes (Fin 2) Bool := ⟨fun _ _ => none, fun _ type => !type.wanted⟩

def sampleSets : SelType → Option FdSet
  | .read => some (· == 0)
  | .write => some (· == 2)
  | .error => some (· == 0)

def sharedNodes : Nodes (Fin 2) Bool :=
  (sampleNodes.addThread false .read 1 true).2.setFlag false .read true

end Sample

theorem sample_select_exact : Exact sampleRequest ⟨sampleNodes, sampleSets, 0⟩
      (vfsSelect sampleRequest sampleNodes sampleSets) := by
  apply select_is_exact
  · intro node type
    rfl
  · intro set hset
    cases hset
    decide +kernel

/-- The only place for a reader is taken: descriptor 0 has data and is not reported. -/
theorem second_reader_unreported : fdNode sampleVfs false 0 = some false ∧
      (vfsSelect sampleRequest sharedNodes sampleSets).nodes.flag false .read = true ∧
      ((vfsSelect sampleRequest sharedNodes sampleSets).sets .read).map (fdIsSet 0) = some false ∧
      (vfsSelect sampleRequest sharedNodes sampleSets).ret = 0 := by
  decide +kernel

end VfsSelectExact
