import Acess2.VfsSelect

/-! Waiting on one node (`VFS_SelectNode`): it is registered with the lists of the types asked for,
waits unless one of the flags has its wanted value, and deregistered again. The value returned is
whether one of the flags has its wanted value, and not which. -/
namespace VfsSelectNode

open VfsSelect

variable {T N : Type}

/-- `1 << type` is `VFS_SELECT_READ`, `VFS_SELECT_WRITE` or `VFS_SELECT_ERROR`. -/
def typeBit : SelType → ℕ
  | .read => 0
  | .write => 1
  | .error => 2

/-- The arguments of a call, with what other threads do in front of each turn of the two loops, and
while it waits -/
structure NodeRequest (T N : Type) where
  node : N
  typeFlags : BitVec 32
  timeout : Option ℤ
  t : T
  malloc : Bool
  schedule : Schedule N t

structure NodeCall (T N : Type) where
  nodes : Nodes T N
  ret : ℕ

section Call

variable [DecidableEq T] [DecidableEq N] (r : NodeRequest T N)

def NodeRequest.asks (type : SelType) : Bool := r.typeFlags.getLsbD (typeBit type)

def others (moves : List (Move T N)) (c : NodeCall T N) : NodeCall T N :=
  { c with nodes := moves.foldl Nodes.move c.nodes }

def addTurn (type : SelType) (c : NodeCall T N) : NodeCall T N :=
  let c := others (r.schedule.registering type 0) c
  if ¬ r.asks type then c
  else
    let nodes := (c.nodes.addThread r.node type r.t r.malloc).2
    if nodes.flag r.node type = type.wanted then ⟨nodes, c.ret ||| 1 <<< typeBit type⟩
    else ⟨nodes, c.ret⟩

/-- A round of the second loop: `ret = ret || *flag == wanted;` -/
def remTurn (type : SelType) (c : NodeCall T N) : NodeCall T N :=
  let c := others (r.schedule.deregistering type 0) c
  if ¬ r.asks type then c
  else
    let nodes := c.nodes.remThread r.node type r.t
    ⟨nodes, if c.ret ≠ 0 ∨ nodes.flag r.node type = type.wanted then 1 else 0⟩

def nodeWait (c : NodeCall T N) : NodeCall T N :=
  { if c.ret = 0 ∧ r.timeout.all (0 < ·) then others r.schedule.waiting c else c with ret := 0 }

/-- `VFS_SelectNode` up to its second loop -/
def registered (nodes : Nodes T N) : NodeCall T N :=
  nodeWait r (addTurn r .error (addTurn r .write (addTurn r .read ⟨nodes, 0⟩)))

def before (c : NodeCall T N) : SelType → NodeCall T N
  | .read => c
  | .write => remTurn r .read c
  | .error => remTurn r .write (remTurn r .read c)

def vfsSelectNode (nodes : Nodes T N) : NodeCall T N :=
  remTurn r .error (before r (registered r nodes) .error)

def finalFlag (nodes : Nodes T N) (type : SelType) : Bool :=
  (others (r.schedule.deregistering type 0) (before r (registered r nodes) type)).nodes.flag
    r.node type

def Ready (nodes : Nodes T N) (type : SelType) : Prop :=
  r.asks type = true ∧ finalFlag r nodes type = type.wanted

end Call

section Lists

variable [DecidableEq T] [DecidableEq N] {r : NodeRequest T N} {c : NodeCall T N}

theorem others_listens {moves : List (Move T N)} (h : ∀ m ∈ moves, m.Foreign r.t) (type : SelType) :
    listens (others moves c).nodes r.t r.node type = listens c.nodes r.t r.node type :=
  congrFun (congrFun (moves_listens h c.nodes) r.node) type

theorem addTurn_listens (type type' : SelType) : listens (addTurn r type c).nodes r.t r.node type' ≤
      listens c.nodes r.t r.node type' + if type' = type ∧ r.asks type then 1 else 0 := by
  rw [← others_listens (c := c) (r.schedule.foreign_registering type 0), addTurn]
  by_cases hasks : r.asks type = true
  · simp only [hasks, not_true_eq_false, if_false, apply_ite NodeCall.nodes, ite_self,
      listens_addThread, true_and, and_true]
    split_ifs <;> simp_all
  · simp [hasks]

theorem remTurn_listens (type type' : SelType) : listens (remTurn r type c).nodes r.t r.node type' =
      listens c.nodes r.t r.node type' - if type' = type ∧ r.asks type then 1 else 0 := by
  rw [← others_listens (c := c) (r.schedule.foreign_deregistering type 0), remTurn]
  by_cases hasks : r.asks type = true
  · simp [hasks, listens_remThread]
  · simp [hasks]

theorem nodeWait_listens (type : SelType) :
    listens (nodeWait r c).nodes r.t r.node type = listens c.nodes r.t r.node type := by
  rw [nodeWait]
  split_ifs
  · exact others_listens r.schedule.foreign_waiting type
  · rfl

theorem selectNode_listens {nodes : Nodes T N} {type : SelType}
    (h : listens nodes r.t r.node type = 0) :
    listens (vfsSelectNode r nodes).nodes r.t r.node type = 0 := by
  rw [vfsSelectNode, remTurn_listens, before, remTurn_listens, remTurn_listens, registered,
    nodeWait_listens]
  have hread := addTurn_listens (r := r) (c := ⟨nodes, 0⟩) .read type
  have hwrite := addTurn_listens (r := r) (c := addTurn r .read ⟨nodes, 0⟩) .write type
  have herror := addTurn_listens (r := r)
    (c := addTurn r .write (addTurn r .read ⟨nodes, 0⟩)) .error type
  rw [h] at hread
  omega

/-- `ret` stays 0 or 1, and is 1 from the first flag on that has its wanted value. -/
theorem remTurn_ret (hret : c.ret = 0 ∨ c.ret = 1) (type : SelType) :
    ((remTurn r type c).ret = 0 ∨ (remTurn r type c).ret = 1) ∧
    ((remTurn r type c).ret = 1 ↔ c.ret = 1 ∨ (r.asks type = true ∧
      (others (r.schedule.deregistering type 0) c).nodes.flag r.node type = type.wanted)) := by
  rw [remTurn]
  by_cases hasks : r.asks type = true
  · have hcret : (others (r.schedule.deregistering type 0) c).ret ≠ 0 ↔ c.ret = 1 := by
      change c.ret ≠ 0 ↔ c.ret = 1
      omega
    simp only [hasks, not_true_eq_false, if_false, remThread_flag, true_and, hcret]
    split_ifs with hready
    · exact ⟨.inr rfl, iff_of_true rfl hready⟩
    · exact ⟨.inl rfl, iff_of_false (by simp) hready⟩
  · simp [hasks, others, hret]

theorem selectNode_ret (nodes : Nodes T N) :
    ((vfsSelectNode r nodes).ret = 0 ∨ (vfsSelectNode r nodes).ret = 1) ∧
      ((vfsSelectNode r nodes).ret = 1 ↔ ∃ type, Ready r nodes type) := by
  obtain ⟨hread, hread'⟩ := remTurn_ret (r := r) (c := registered r nodes) (.inl rfl) .read
  obtain ⟨hwrite, hwrite'⟩ := remTurn_ret (r := r) hread .write
  obtain ⟨herror, herror'⟩ := remTurn_ret (r := r) hwrite .error
  refine ⟨herror, herror'.trans ?_⟩
  rw [hwrite', hread']
  constructor
  · rintro (((hzero | h) | h) | h)
    · cases hzero
    · exact ⟨.read, h⟩
    · exact ⟨.write, h⟩
    · exact ⟨.error, h⟩
  · rintro ⟨type, h⟩
    cases type with
    | read => exact .inl (.inl (.inr h))
    | write => exact .inl (.inr h)
    | error => exact .inr h

end Lists

/-- The thread is on no list of the node afterwards. The value returned has the bits of the types
that are ready exactly if neither writing nor an error is. -/
theorem result_is_mask_iff [DecidableEq T] [DecidableEq N] (r : NodeRequest T N) (nodes : Nodes T N)
    (hnone : ∀ type, listens nodes r.t r.node type = 0) :
    (∀ type, listens (vfsSelectNode r nodes).nodes r.t r.node type = 0) ∧
    ((∀ type, (vfsSelectNode r nodes).ret.testBit (typeBit type) = true ↔ Ready r nodes type) ↔
      ¬ Ready r nodes .write ∧ ¬ Ready r nodes .error) := by
  refine ⟨fun type => selectNode_listens (hnone type), ?_⟩
  obtain ⟨hret, hready⟩ := selectNode_ret (r := r) nodes
  have hother : ∀ type, type ≠ .read →
      (vfsSelectNode r nodes).ret.testBit (typeBit type) = false := by
    intro type hne
    rcases hret with h | h <;> rw [h] <;> cases type <;> first | rfl | exact absurd rfl hne
  constructor
  · intro hmask
    constructor
    · rw [← hmask, hother .write nofun]
      exact Bool.false_ne_true
    · rw [← hmask, hother .error nofun]
      exact Bool.false_ne_true
  · rintro ⟨hwrite, herror⟩ type
    cases type with
    | read =>
      have hbit : (vfsSelectNode r nodes).ret.testBit 0 = true ↔
          (vfsSelectNode r nodes).ret = 1 := by
        rcases hret with h | h <;> rw [h] <;> decide
      refine hbit.trans (hready.trans ⟨?_, fun h => ⟨.read, h⟩⟩)
      rintro ⟨type, h⟩
      cases type with
      | read => exact h
      | write => exact absurd h hwrite
      | error => exact absurd h herror
    | write => exact iff_of_false (by rw [hother .write nofun]; exact Bool.false_ne_true) hwrite
    | error => exact iff_of_false (by rw [hother .error nofun]; exact Bool.false_ne_true) herror

def sampleNodes (flag : SelType → Bool) : Nodes Unit Unit := ⟨fun _ _ => none, fun _ => flag⟩

def sampleRequest : NodeRequest Unit Unit where
  node := ()
  typeFlags := 5
  timeout := none
  t := ()
  malloc := true
  schedule := ⟨fun _ _ => [], [], fun _ _ => [], by simp, by simp, by simp⟩

/-- Data to be read are reported as such. -/
theorem data_reported :
    (vfsSelectNode sampleRequest (sampleNodes (· = .read))).ret.testBit 0 = true ∧
      ∀ type, listens (vfsSelectNode sampleRequest (sampleNodes (· = .read))).nodes () () type =
        0 := by
  obtain ⟨hlists, hmask⟩ := result_is_mask_iff sampleRequest (sampleNodes (· = .read)) fun _ => rfl
  refine ⟨((hmask.mpr ⟨?_, ?_⟩) .read).mpr ⟨by decide, by decide⟩, hlists⟩
  · exact fun h => absurd h.1 (by decide)
  · exact fun h => absurd h.2 (by decide)

/-- An error is reported as data to be read. -/
theorem error_reported_as_data : (vfsSelectNode sampleRequest (sampleNodes (· ≠ .read))).ret = 1 ∧
      Ready sampleRequest (sampleNodes (· ≠ .read)) .error ∧
      ¬ Ready sampleRequest (sampleNodes (· ≠ .read)) .read := by
  unfold Ready
  decide

end VfsSelectNode
