import Acess2.GuardedRuns
import Acess2.MachineWords

/-! The nodes of a FAT volume in use (`nodecache.c`), numbered in the order of their allocation. Of
a node, the fields that its openers share are kept. -/
namespace FatNodeCache

open Function GuardedRuns List MachineWords Option

/-- `tFAT_VolInfo` with its nodes; `freed` are those that are no more, and `held` counts the
references that the callers have. -/
structure Disk where
  nodeCache : List ℕ
  inode : ℕ → BitVec 64
  size : ℕ → BitVec 64
  referenceCount : ℕ → ℤ
  freed : ℕ → Bool
  made : ℕ
  held : ℕ → ℕ

inductive Ref where
  | root
  | node (n : ℕ)

structure Entry where
  cluster : BitVec 32
  size : BitVec 32
  directory : Bool

def Disk.cluster (d : Disk) (n : ℕ) : BitVec 32 := (d.inode n).setWidth 32

def reference (d : Disk) (n : ℕ) : Disk :=
  { d with
    referenceCount := update d.referenceCount n (toInt (d.referenceCount n + 1))
    held := update d.held n (d.held n + 1) }

def addNode (d : Disk) (inode size : BitVec 64) : Ref × Disk :=
  (.node d.made, { d with
    nodeCache := d.nodeCache ++ [d.made]
    inode := update d.inode d.made inode
    size := update d.size d.made size
    referenceCount := update d.referenceCount d.made 1
    freed := update d.freed d.made false
    made := d.made + 1
    held := update d.held d.made 1 })

variable (rootOffset : BitVec 32)

def getNode (d : Disk) (cluster : BitVec 32) : Option Ref × Disk :=
  if cluster = rootOffset then (some .root, d)
  else
    match d.nodeCache.find? (d.cluster · = cluster) with
    | some n => (some (.node n), reference d n)
    | none => (none, d)

def cacheNode (d : Disk) (inode size : BitVec 64) : Ref × Disk :=
  match d.nodeCache.find? (d.inode · = inode) with
  | some n => (.node n, reference d n)
  | none => addNode d inode size

/-- The cluster is an `int` where it is put into the `Inode`. -/
def inodeOf (parent : BitVec 64) (e : Entry) : BitVec 64 :=
  e.cluster.signExtend 64 ||| parent <<< 32

def sizeOf (e : Entry) : BitVec 64 := if e.directory then -1 else e.size.setWidth 64

/-- `FAT_int_CreateNode`, where a node that is found and not complete is filled in -/
def createNode (d : Disk) (parent : BitVec 64) (e : Entry) : Ref × Disk :=
  match getNode rootOffset d e.cluster with
  | (some .root, d) => (.root, d)
  | (some (.node n), d) => (.node n, if d.inode n >>> 32 ≠ 0 then d
      else { d with
        inode := update d.inode n (inodeOf parent e), size := update d.size n (sizeOf e) })
  | (none, d) => cacheNode d (inodeOf parent e) (sizeOf e)

def createIncompleteDirNode (d : Disk) (cluster : BitVec 32) : Ref × Disk :=
  match getNode rootOffset d cluster with
  | (some r, d) => (r, d)
  | (none, d) => addNode d (cluster.setWidth 64) (-1)

def derefNode (d : Disk) : Ref → ℤ × Disk
  | .root => (0, d)
  | .node n =>
    let count := toInt (d.referenceCount n - 1)
    let d := { d with
      referenceCount := update d.referenceCount n count, held := update d.held n (d.held n - 1) }
    if n ∈ d.nodeCache then
      let d := { d with nodeCache := d.nodeCache.erase n }
      if count = 0 then (1, { d with freed := update d.freed n true }) else (0, d)
    else (-1, d)

inductive Op where
  | createNode (parent : BitVec 64) (e : Entry)
  | createIncompleteDirNode (cluster : BitVec 32)
  | getNode (cluster : BitVec 32)
  | derefNode (n : ℕ)

def step (d : Disk) : Op → Option Disk
  | .createNode parent e => some (createNode rootOffset d parent e).2
  | .createIncompleteDirNode cluster => some (createIncompleteDirNode rootOffset d cluster).2
  | .getNode cluster => some (getNode rootOffset d cluster).2
  | .derefNode n => if 0 < d.held n then some (derefNode d (.node n)).2 else none

def mounted : Disk := ⟨[], fun _ => 0, fun _ => 0, fun _ => 0, fun _ => false, 0, fun _ => 0⟩

/-- A reference is dropped when it is the only one; and references are not more than an `int`
counts. -/
def Guard (d : Disk) : Op → Prop
  | .derefNode n => d.held n = 1
  | _ => ∀ n ∈ d.nodeCache, d.held n < 2 ^ 31 - 1

instance (d : Disk) : DecidablePred (Guard d) := fun c => by
  cases c <;> dsimp only [Guard] <;> infer_instance

variable {rootOffset} {cluster : BitVec 32} {d d' : Disk} {n : ℕ} {inode size : BitVec 64}

/-- Nodes with references are listed, one for a cluster, and freed with their last reference. -/
structure Kept (rootOffset : BitVec 32) (d : Disk) : Prop where
  listed : ∀ n < d.made, n ∈ d.nodeCache ↔ 0 < d.referenceCount n
  one : ∀ m < d.made, ∀ n < d.made, d.freed m = false → d.freed n = false →
    d.cluster m = d.cluster n → m = n
  root : ∀ n < d.made, d.freed n = false → d.cluster n ≠ rootOffset
  freed : ∀ n < d.made, d.freed n = true ↔ d.held n = 0
  last : ∀ n, 0 < d.held n → ((derefNode d (.node n)).1 = 1 ↔ d.held n = 1)

structure Inv (rootOffset : BitVec 32) (d : Disk) : Prop where
  nodup : d.nodeCache.Nodup
  listed : ∀ n, n ∈ d.nodeCache ↔ 0 < d.held n
  made : ∀ n ∈ d.nodeCache, n < d.made
  count : ∀ n, d.referenceCount n = d.held n ∧ d.held n < 2 ^ 31
  freed : ∀ n < d.made, d.freed n = true ↔ d.held n = 0
  one : ∀ m ∈ d.nodeCache, ∀ n ∈ d.nodeCache, d.cluster m = d.cluster n → m = n
  root : ∀ n ∈ d.nodeCache, d.cluster n ≠ rootOffset

section

variable (h : Inv rootOffset d)
include h

theorem Inv.reference (hn : n ∈ d.nodeCache)
    (hroom : d.held n < 2 ^ 31 - 1) : Inv rootOffset (reference d n) := by
  have hpos := (h.listed n).mp hn
  have hcount : toInt (d.referenceCount n + 1) = ((d.held n + 1 : ℕ) : ℤ) := by
    rw [(h.count n).1, ← Nat.cast_succ]
    exact toInt_of_lt (by omega)
  refine { h with listed := fun m => (h.listed m).trans ?_, count := fun m => ?_,
                  freed := fun m hm => (h.freed m hm).trans ?_ }
  · by_cases hmn : m = n <;> simp [FatNodeCache.reference, hmn, hpos]
  · by_cases hmn : m = n
    · subst hmn
      simp only [FatNodeCache.reference, update_self, hcount, true_and]
      omega
    · simpa [FatNodeCache.reference, hmn] using h.count m
  · by_cases hmn : m = n <;> simp [FatNodeCache.reference, hmn, hpos.ne']

theorem Inv.addNode (hroot : inode.setWidth 32 ≠ rootOffset)
    (hnew : ∀ n ∈ d.nodeCache, d.cluster n ≠ inode.setWidth 32) :
    Inv rootOffset (addNode d inode size).2 := by
  have hne : ∀ n ∈ d.nodeCache, n ≠ d.made := fun n hn => (h.made n hn).ne
  have hcluster : ∀ n ∈ d.nodeCache,
      (FatNodeCache.addNode d inode size).2.cluster n = d.cluster n := fun n hn =>
    congrArg (BitVec.setWidth 32) (update_of_ne (hne n hn) ..)
  have hself : (FatNodeCache.addNode d inode size).2.cluster d.made = inode.setWidth 32 :=
    congrArg (BitVec.setWidth 32) (update_self ..)
  refine ⟨?_, fun n => ?_, fun n hn => ?_, fun n => ?_, fun n hn => ?_, fun m hm n hn heq => ?_,
    fun n hn => ?_⟩
  · exact nodup_append.mpr ⟨h.nodup, pairwise_singleton .., fun n hn m hm =>
      mem_singleton.mp hm ▸ hne n hn⟩
  · by_cases hnm : n = d.made <;> simp [FatNodeCache.addNode, hnm, h.listed]
  · rcases mem_append.mp hn with hn | hn
    · exact Nat.lt_succ_of_lt (h.made n hn)
    · exact mem_singleton.mp hn ▸ Nat.lt_succ_self _
  · by_cases hnm : n = d.made
    · simp [FatNodeCache.addNode, hnm]
    · simpa [FatNodeCache.addNode, hnm] using h.count n
  · by_cases hnm : n = d.made
    · simp [FatNodeCache.addNode, hnm]
    · simpa [FatNodeCache.addNode, hnm] using
        h.freed n (Nat.lt_of_le_of_ne (Nat.lt_succ_iff.mp hn) hnm)
  · rcases mem_append.mp hm with hm | hm <;> rcases mem_append.mp hn with hn | hn
    · exact h.one m hm n hn (by rwa [hcluster m hm, hcluster n hn] at heq)
    · obtain rfl := mem_singleton.mp hn
      exact absurd ((hcluster m hm).symm.trans (heq.trans hself)) (hnew m hm)
    · obtain rfl := mem_singleton.mp hm
      exact absurd ((hcluster n hn).symm.trans (heq.symm.trans hself)) (hnew n hn)
    · exact (mem_singleton.mp hm).trans (mem_singleton.mp hn).symm
  · rcases mem_append.mp hn with hn | hn
    · exact hcluster n hn ▸ h.root n hn
    · exact mem_singleton.mp hn ▸ hself ▸ hroot

theorem Inv.getNode (hroom : ∀ n ∈ d.nodeCache, d.held n < 2 ^ 31 - 1)
    (cluster : BitVec 32) : Inv rootOffset (getNode rootOffset d cluster).2 := by
  rw [FatNodeCache.getNode]
  split_ifs
  · exact h
  · cases hfind : d.nodeCache.find? (d.cluster · = cluster) with
    | none => exact h
    | some n =>
      have hn := mem_of_find?_eq_some hfind
      exact h.reference hn (hroom n hn)

omit h in
theorem getNode_node (hget : getNode rootOffset d cluster = (some (.node n), d')) :
    n ∈ d'.nodeCache ∧ d'.cluster n = cluster := by
  rw [FatNodeCache.getNode] at hget
  split_ifs at hget with hroot
  · simp at hget
  cases hfind : d.nodeCache.find? (d.cluster · = cluster) with
  | none => simp [hfind] at hget
  | some m =>
    simp only [hfind, Prod.mk.injEq, some.injEq, Ref.node.injEq] at hget
    obtain ⟨rfl, rfl⟩ := hget
    have hcluster : d.cluster m = cluster := by simpa using find?_some hfind
    exact ⟨mem_of_find?_eq_some hfind, hcluster⟩

omit h in
theorem getNode_none (hget : getNode rootOffset d cluster = (none, d')) :
    d' = d ∧ cluster ≠ rootOffset ∧ ∀ n ∈ d.nodeCache, d.cluster n ≠ cluster := by
  rw [FatNodeCache.getNode] at hget
  split_ifs at hget with hroot
  · simp at hget
  · cases hfind : d.nodeCache.find? (d.cluster · = cluster) with
    | none =>
      simp only [hfind, Prod.mk.injEq, true_and] at hget
      exact ⟨hget.symm, hroot, by simpa using hfind⟩
    | some m => simp [hfind] at hget

omit h in
theorem inodeOf_cluster (parent : BitVec 64) (e : Entry) :
    (inodeOf parent e).setWidth 32 = e.cluster := by
  apply BitVec.eq_of_getLsbD_eq
  intro i hi
  simp [inodeOf, BitVec.getElem_signExtend, hi, show i < 64 by omega]

theorem Inv.createNode (hroom : ∀ n ∈ d.nodeCache, d.held n < 2 ^ 31 - 1)
    (parent : BitVec 64) (e : Entry) : Inv rootOffset (createNode rootOffset d parent e).2 := by
  have hinv := h.getNode hroom e.cluster
  rw [FatNodeCache.createNode]
  rcases hget : FatNodeCache.getNode rootOffset d e.cluster with ⟨_ | _ | n, d'⟩ <;>
    simp only [hget] at hinv ⊢
  · obtain ⟨rfl, hroot, hnew⟩ := getNode_none hget
    have hnone : d'.nodeCache.find? (d'.inode · = inodeOf parent e) = none := by
      simp only [find?_eq_none, decide_eq_true_eq]
      intro n hn heq
      exact hnew n hn (by rw [Disk.cluster, heq, inodeOf_cluster])
    rw [cacheNode, hnone]
    exact hinv.addNode (by rwa [inodeOf_cluster]) (by rwa [inodeOf_cluster])
  · exact hinv
  · obtain ⟨-, hcluster⟩ := getNode_node hget
    split_ifs
    · exact hinv
    have hkept : ∀ m, (update d'.inode n (inodeOf parent e) m).setWidth 32 = d'.cluster m := by
      intro m
      by_cases hmn : m = n
      · rw [hmn, update_self, inodeOf_cluster, hcluster]
      · rw [update_of_ne hmn, Disk.cluster]
    exact { hinv with
      one := fun m hm k hk heq => hinv.one m hm k hk ((hkept m).symm.trans (heq.trans (hkept k)))
      root := fun m hm heq => hinv.root m hm ((hkept m).symm.trans heq) }

theorem Inv.derefNode (hlast : d.held n = 1) : Inv rootOffset (derefNode d (.node n)).2 := by
  have hn : n ∈ d.nodeCache := (h.listed n).mpr (by omega)
  have hcount : toInt (d.referenceCount n - 1) = 0 := by simp [(h.count n).1, hlast, toInt]
  simp only [FatNodeCache.derefNode, hn, hcount, if_true]
  have hkept : ∀ m ∈ d.nodeCache.erase n, m ∈ d.nodeCache := fun _ => mem_of_mem_erase
  refine ⟨h.nodup.erase n, fun m => ?_, fun m hm => h.made m (hkept m hm), fun m => ?_,
    fun m hm => ?_, fun m hm k hk => h.one m (hkept m hm) k (hkept k hk),
    fun m hm => h.root m (hkept m hm)⟩
  · rw [h.nodup.mem_erase_iff]
    by_cases hmn : m = n <;> simp [hmn, hlast, h.listed]
  · by_cases hmn : m = n
    · simp [hmn, hlast]
    · simpa [hmn] using h.count m
  · by_cases hmn : m = n
    · simp [hmn, hlast]
    · simpa [hmn] using h.freed m hm

theorem Inv.step {op : Op} (hguard : Guard d op)
    (hstep : step rootOffset d op = some d') : Inv rootOffset d' := by
  cases op with
  | createNode parent e => exact some.inj hstep ▸ h.createNode hguard parent e
  | createIncompleteDirNode cluster =>
    cases hstep
    have hinv := h.getNode hguard cluster
    rw [createIncompleteDirNode]
    rcases hget : FatNodeCache.getNode rootOffset d cluster with ⟨_ | r, d'⟩ <;>
      simp only [hget] at hinv ⊢
    · obtain ⟨rfl, hroot, hnew⟩ := getNode_none hget
      exact hinv.addNode (by simpa using hroot) (by simpa using hnew)
    · exact hinv
  | getNode cluster => exact some.inj hstep ▸ h.getNode hguard cluster
  | derefNode n =>
    obtain ⟨-, heq⟩ := ite_none_right_eq_some.mp hstep
    exact some.inj heq ▸ h.derefNode hguard

end

/-- Where a reference is dropped only when it is the last one, the nodes are kept. -/
theorem nodes_kept (rootOffset : BitVec 32) (ops : List Op)
    (hguard : Along (FatNodeCache.step rootOffset) Guard mounted ops)
    (hrun : run (FatNodeCache.step rootOffset) mounted ops = some d) : Kept rootOffset d := by
  have hmounted : Inv rootOffset mounted := by constructor <;> simp [mounted]
  have h := run_invariant (fun _ _ _ h hg => h.step hg) hmounted hguard hrun
  have hlive : ∀ n < d.made, d.freed n = false → n ∈ d.nodeCache := fun n hn hfree =>
    (h.listed n).mpr (Nat.pos_of_ne_zero fun hz => by simp [(h.freed n hn).mpr hz] at hfree)
  refine ⟨fun n _ => ?_, fun m hm n hn hfm hfn => h.one m (hlive m hm hfm) n (hlive n hn hfn),
    fun n hn hfree => h.root n (hlive n hn hfree), h.freed, fun n hn => ?_⟩
  · rw [h.listed, (h.count n).1]
    omega
  · have hcount : toInt (d.referenceCount n - 1) = ((d.held n - 1 : ℕ) : ℤ) := by
      rw [(h.count n).1, ← Nat.cast_pred hn]
      exact toInt_of_lt (by have := (h.count n).2; omega)
    simp only [derefNode, (h.listed n).mpr hn, hcount, if_true]
    split_ifs <;> simp <;> omega

def sampleOps : List Op :=
  [.createNode 2 ⟨5, 100, false⟩, .createIncompleteDirNode 7, .createNode 2 ⟨7, 0, true⟩,
    .getNode 2, .derefNode 0, .createNode 7 ⟨5, 60, false⟩]

theorem sampleOps_kept : Along (FatNodeCache.step 2) Guard mounted sampleOps ∧
    ∃ d, run (FatNodeCache.step 2) mounted sampleOps = some d ∧ Kept 2 d := by
  have hguard : Along (FatNodeCache.step 2) Guard mounted sampleOps := by decide +kernel
  obtain ⟨d, hd⟩ : ∃ d, run (FatNodeCache.step 2) mounted sampleOps = some d :=
    isSome_iff_exists.mp (by decide +kernel)
  exact ⟨hguard, d, hd, nodes_kept 2 sampleOps hguard hd⟩

/-- Open twice and closed once, a file is off the list: opened again it is a second node. -/
theorem twice_open_lost : (run (FatNodeCache.step 2) mounted [.createNode 2 ⟨5, 100, false⟩,
      .createNode 2 ⟨5, 100, false⟩, .derefNode 0, .createNode 2 ⟨5, 60, false⟩]).map
        (fun d => (d.nodeCache, d.referenceCount 0, d.freed 0, decide (d.cluster 0 = d.cluster 1),
          (derefNode d (.node 0)).1)) =
      some ([1], 1, false, true, -1) := by
  decide +kernel

end FatNodeCache
