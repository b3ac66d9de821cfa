import Mathlib.Data.List.TakeWhile
import Acess2.GuardedRuns
import Acess2.ThreadsModel

/-! The cache of VFS nodes by inode number (`vfs/nodecache.c`).
The list is sorted by inode, and `MaxCached` lets a search for a larger inode end at once, so it
must never be too small. -/
namespace InodeCache

open Function GuardedRuns List Option
open ThreadsModel (wrap32 wrap32_eq)

abbrev Inode := Fin (2 ^ 64)

/-- `tCachedInode`; `node` is what is copied from the caller's node. -/
structure Entry (N : Type) where
  inode : Inode
  referenceCount : ℤ
  node : N
  deriving DecidableEq

/-- `tInodeCache`: the list from `FirstNode` -/
structure Cache (N : Type) where
  nodes : List (Entry N)
  maxCached : Inode
  deriving DecidableEq

variable {N : Type}

section

variable (c : Cache N) (i : Inode)

def Cache.before : List (Entry N) := c.nodes.takeWhile (·.inode < i)

def Cache.rest : List (Entry N) := c.nodes.dropWhile (·.inode < i)

def inodeGetCache : Option N × Cache N :=
  if i > c.maxCached then (none, c)
  else
    match c.rest i with
    | [] => (none, c)
    | ent :: after =>
      if ent.inode > i then (none, c)
      else
        let ent := { ent with referenceCount := wrap32 (ent.referenceCount + 1) }
        (some ent.node, { c with nodes := c.before i ++ ent :: after })

def inodeCacheNodeEx (node : N) : N × Cache N :=
  let c := { c with maxCached := if i > c.maxCached then i else c.maxCached }
  let create := (node, { c with nodes := c.before i ++ ⟨i, 1, node⟩ :: c.rest i })
  match c.rest i with
  | [] => create
  | ent :: after =>
    if ent.inode = i then
      let ent := { ent with referenceCount := wrap32 (ent.referenceCount + 1) }
      (ent.node, { c with nodes := c.before i ++ ent :: after })
    else create

/-- `Inode_UncacheNode`; the second part of the result is the entry that is cleaned up and
freed. -/
def inodeUncacheNode : ℤ × Option (Entry N) × Cache N :=
  if i > c.maxCached then (-1, none, c)
  else
    match c.rest i with
    | [] => (-1, none, c)
    | ent :: after =>
      if ent.inode > i then (-1, none, c)
      else
        let ent := { ent with referenceCount := wrap32 (ent.referenceCount - 1) }
        if ent.referenceCount = 0 then
          -- the entry is off the list by now, so it is not `FirstNode`
          let maxCached :=
            if ent.inode = c.maxCached then
              match (c.before i).getLast? with
              | some prev => prev.inode
              | none => 0
            else c.maxCached
          (1, some ent, ⟨c.before i ++ after, maxCached⟩)
        else (0, none, { c with nodes := c.before i ++ ent :: after })

end

/-- The cache, and what the calls say about each inode: the node that was inserted, and how often
it has been returned and given back since -/
structure State (N : Type) where
  cache : Cache N
  inserted : Inode → Option N
  returned : Inode → ℕ
  uncached : Inode → ℕ

inductive Op (N : Type) where
  | cacheNode (inode : Inode) (node : N)
  | getCache (inode : Inode)
  | uncacheNode (inode : Inode)
  deriving DecidableEq

section

variable (s : State N) (i : Inode)

/-- By the calls, a node with that inode is cached: not every reference was given back. -/
def Cached : Prop := s.uncached i < s.returned i

instance : Decidable (Cached s i) := inferInstanceAs (Decidable (s.uncached i < s.returned i))

def outstanding : ℤ := s.returned i - s.uncached i

def State.take : State N := { s with returned := update s.returned i (s.returned i + 1) }

/-- One call, and what is known after it; the cache itself is not looked at for that. -/
def next : Op N → State N
  | .cacheNode i node =>
    let s := { s with cache := (inodeCacheNodeEx s.cache i node).2 }
    if Cached s i then s.take i
    else { s with
      inserted := update s.inserted i (some node)
      returned := update s.returned i 1
      uncached := update s.uncached i 0 }
  | .getCache i =>
    let s := { s with cache := (inodeGetCache s.cache i).2 }
    if Cached s i then s.take i else s
  | .uncacheNode i =>
    let s := { s with cache := (inodeUncacheNode s.cache i).2.2 }
    if Cached s i then { s with uncached := update s.uncached i (s.uncached i + 1) } else s

end

def step (s : State N) (op : Op N) : Option (State N) := some (next s op)

/-- No cached node gets more references than an `int` can count. -/
def Legal (s : State N) : Op N → Prop
  | .cacheNode i _ => outstanding s i < 2 ^ 31 - 1
  | .getCache i => outstanding s i < 2 ^ 31 - 1
  | .uncacheNode _ => True

/-- The inodes of the list are strictly increasing, and `MaxCached` is the largest of them. -/
structure Ordered (inodes : List Inode) (maxCached : Inode) : Prop where
  sorted : inodes.Pairwise (· < ·)
  bound : ∀ i ∈ inodes, i ≤ maxCached
  attained : inodes ≠ [] → maxCached ∈ inodes
  empty : inodes = [] → maxCached = 0

def Listed (c : Cache N) (i : Inode) : Prop := ∃ e ∈ c.nodes, e.inode = i

/-- The list is in order and has the cached nodes, and the counts are right. -/
structure Kept (s : State N) : Prop where
  ordered : Ordered (s.cache.nodes.map Entry.inode) s.cache.maxCached
  listed : ∀ i, Listed s.cache i ↔ Cached s i
  node : ∀ e ∈ s.cache.nodes, s.inserted e.inode = some e.node
  count : ∀ e ∈ s.cache.nodes, e.referenceCount = outstanding s e.inode
  positive : ∀ e ∈ s.cache.nodes, 0 < e.referenceCount ∧ e.referenceCount < 2 ^ 31

/-- What `Inode_UncacheNode` returns and does -/
structure Releases (s : State N) (i : Inode) (result : ℤ × Option (Entry N) × Cache N) : Prop where
  returns : result.1 = 1 ↔ outstanding s i = 1
  frees : result.1 = 1 →
    (∃ e, result.2.1 = some e ∧ e.inode = i ∧ s.inserted i = some e.node) ∧
    result.2.2.nodes = s.cache.nodes.filter (·.inode ≠ i)
  keeps : result.1 ≠ 1 → (result.1 = 0 ∨ result.1 = -1) ∧ result.2.1 = none ∧
    result.2.2.nodes.map Entry.inode = s.cache.nodes.map Entry.inode

variable {a b : List Inode} {i maxCached : Inode}

theorem Ordered.insert (h : Ordered (a ++ b) maxCached) (ha : ∀ j ∈ a, j < i)
    (hb : ∀ j ∈ b, i < j) : Ordered (a ++ i :: b) (if i > maxCached then i else maxCached) := by
  have hmem (j : Inode) : j ∈ a ++ i :: b ↔ j = i ∨ j ∈ a ++ b := by
    rw [perm_middle.mem_iff, mem_cons]
  obtain ⟨hsa, hsb, hab⟩ := pairwise_append.mp h.sorted
  constructor
  case sorted =>
    refine pairwise_append.mpr ⟨hsa, pairwise_cons.mpr ⟨hb, hsb⟩, fun x hx y hy => ?_⟩
    rcases mem_cons.mp hy with rfl | hy
    · exact ha x hx
    · exact hab x hx y hy
  case bound =>
    intro j hj
    have hle : maxCached ≤ if i > maxCached then i else maxCached := by
      split
      · exact le_of_lt ‹_›
      · exact le_rfl
    rcases (hmem j).mp hj with rfl | hj
    · split
      · exact le_rfl
      · exact not_lt.mp ‹_›
    · exact (h.bound j hj).trans hle
  case attained =>
    intro _
    rw [hmem]
    split
    · exact .inl rfl
    rename_i hle
    by_cases hempty : a ++ b = []
    · refine .inl ?_
      rw [h.empty hempty] at hle ⊢
      exact (le_antisymm (not_lt.mp hle) (Fin.zero_le i)).symm
    · exact .inr (h.attained hempty)
  case empty => exact fun hnil => absurd hnil (by simp)

theorem Ordered.remove (h : Ordered (a ++ i :: b) maxCached) :
    Ordered (a ++ b) (if i = maxCached then a.getLast?.getD 0 else maxCached) := by
  have hmem (j : Inode) : j ∈ a ++ i :: b ↔ j = i ∨ j ∈ a ++ b := by
    rw [perm_middle.mem_iff, mem_cons]
  have hsub : (a ++ b).Sublist (a ++ i :: b) :=
    List.Sublist.append (List.Sublist.refl a) (sublist_cons_self i b)
  have hsorted := h.sorted.sublist hsub
  by_cases hi : i = maxCached
  · -- nothing is larger than the entry, so it was the last one
    rw [if_pos hi]
    obtain ⟨-, hib, -⟩ := pairwise_append.mp h.sorted
    have hb : b = [] := by
      refine eq_nil_iff_forall_not_mem.mpr fun j hj => ?_
      have hlt := (pairwise_cons.mp hib).1 j hj
      rw [hi] at hlt
      exact not_le.mpr hlt (h.bound j ((hmem j).mpr (.inr (mem_append_right a hj))))
    subst hb
    rw [append_nil] at hsorted ⊢
    rcases eq_nil_or_concat a with rfl | ⟨front, last, rfl⟩
    · exact ⟨hsorted, fun _ hj => (by cases hj), fun hne => absurd rfl hne, fun _ => rfl⟩
    · rw [concat_eq_append] at hsorted ⊢
      rw [getLast?_concat, getD_some]
      refine ⟨hsorted, forall_mem_append.mpr ⟨fun j hj => ?_, forall_mem_singleton.mpr le_rfl⟩,
        fun _ => by simp, fun hnil => absurd hnil (by simp)⟩
      exact le_of_lt ((pairwise_append.mp hsorted).2.2 j hj last (mem_singleton_self _))
  · rw [if_neg hi]
    have hold : maxCached ∈ a ++ b :=
      ((hmem maxCached).mp (h.attained (by simp))).resolve_left (Ne.symm hi)
    refine ⟨hsorted, fun j hj => h.bound j (hsub.subset hj), fun _ => hold, fun hnil => ?_⟩
    rw [hnil] at hold
    cases hold

variable {c : Cache N} {ent : Entry N} {after : List (Entry N)}

theorem nodes_eq (c : Cache N) (i : Inode) : c.nodes = c.before i ++ c.rest i :=
  takeWhile_append_dropWhile.symm

theorem nodes_cons (h : c.rest i = ent :: after) : c.nodes = c.before i ++ ent :: after := by
  rw [← h]
  exact nodes_eq c i

theorem before_lt {e : Entry N} (h : e ∈ c.before i) : e.inode < i := by
  simpa using mem_takeWhile_imp h

theorem rest_head (h : c.rest i = ent :: after) : i ≤ ent.inode := by
  have hhead := head?_dropWhile_not (fun e : Entry N => decide (e.inode < i)) c.nodes
  have hrest : c.nodes.dropWhile (fun e => decide (e.inode < i)) = ent :: after := h
  rw [hrest] at hhead
  exact not_lt.mp (of_decide_eq_false hhead)

theorem rest_gt {e : Entry N} (hsorted : (c.nodes.map Entry.inode).Pairwise (· < ·))
    (h : c.rest i = ent :: after) (he : e ∈ after) : ent.inode < e.inode := by
  rw [nodes_eq c i, h, pairwise_map] at hsorted
  exact (pairwise_cons.mp (pairwise_append.mp hsorted).2.1).1 e he

theorem rest_ge {e : Entry N} (hsorted : (c.nodes.map Entry.inode).Pairwise (· < ·))
    (he : e ∈ c.rest i) : i ≤ e.inode := by
  obtain ⟨ent, after, hr⟩ := exists_cons_of_ne_nil (ne_nil_of_mem he)
  rw [hr] at he
  rcases mem_cons.mp he with rfl | he
  · exact rest_head hr
  · exact (rest_head hr).trans (le_of_lt (rest_gt hsorted hr he))

theorem listed_iff_mem : Listed c i ↔ i ∈ c.nodes.map Entry.inode := mem_map.symm

theorem listed_iff (hsorted : (c.nodes.map Entry.inode).Pairwise (· < ·)) :
    Listed c i ↔ ∃ ent after, c.rest i = ent :: after ∧ ent.inode = i := by
  constructor
  · rintro ⟨e, he, rfl⟩
    rw [nodes_eq c e.inode] at he
    have hrest : e ∈ c.rest e.inode :=
      (mem_append.mp he).resolve_left fun hb => lt_irrefl _ (before_lt hb)
    obtain ⟨ent, after, hr⟩ := exists_cons_of_ne_nil (ne_nil_of_mem hrest)
    refine ⟨ent, after, hr, ?_⟩
    rw [hr] at hrest
    rcases mem_cons.mp hrest with heq | hmem
    · rw [heq]
    · exact absurd (rest_gt hsorted hr hmem) (not_lt.mpr (rest_head hr))
  · rintro ⟨ent, after, hrest, rfl⟩
    refine ⟨ent, ?_, rfl⟩
    rw [nodes_eq c ent.inode, hrest]
    simp

section Calls

theorem inodeGetCache_found (hmax : i ≤ c.maxCached) (hrest : c.rest i = ent :: after)
    (hi : ent.inode = i) : inodeGetCache c i = (some ent.node, { c with
      nodes := c.before i ++
        { ent with referenceCount := wrap32 (ent.referenceCount + 1) } :: after }) := by
  rw [inodeGetCache, if_neg (not_lt.mpr hmax), hrest]
  exact if_neg (by rw [hi]; exact lt_irrefl i)

variable (hsorted : (c.nodes.map Entry.inode).Pairwise (· < ·)) (h : ¬ Listed c i)
include hsorted h

theorem lt_rest_head (hrest : c.rest i = ent :: after) : i < ent.inode := by
  refine lt_of_le_of_ne (rest_head hrest) fun hi => h ?_
  exact (listed_iff hsorted).mpr ⟨ent, after, hrest, hi.symm⟩

theorem inodeGetCache_missing : inodeGetCache c i = (none, c) := by
  rw [inodeGetCache]
  split
  · rfl
  · cases hrest : c.rest i with
    | nil => rfl
    | cons ent after => exact if_pos (lt_rest_head hsorted h hrest)

theorem inodeUncacheNode_missing : inodeUncacheNode c i = (-1, none, c) := by
  rw [inodeUncacheNode]
  split
  · rfl
  · cases hrest : c.rest i with
    | nil => rfl
    | cons ent after => exact if_pos (lt_rest_head hsorted h hrest)

omit hsorted h in
theorem inodeUncacheNode_found (hmax : i ≤ c.maxCached) (hrest : c.rest i = ent :: after)
    (hi : ent.inode = i) : inodeUncacheNode c i = if wrap32 (ent.referenceCount - 1) = 0 then
        (1, some { ent with referenceCount := wrap32 (ent.referenceCount - 1) },
          ⟨c.before i ++ after, if i = c.maxCached
            then ((c.before i).map Entry.inode).getLast?.getD 0 else c.maxCached⟩)
      else (0, none, { c with
        nodes := c.before i ++
          { ent with referenceCount := wrap32 (ent.referenceCount - 1) } :: after }) := by
  have hgt : ¬ ent.inode > i := by
    rw [hi]
    exact lt_irrefl i
  have hlast : (match (c.before i).getLast? with
      | some prev => prev.inode
      | none => 0) = ((c.before i).map Entry.inode).getLast?.getD 0 := by
    rw [getLast?_map]
    cases (c.before i).getLast? with
    | none => rfl
    | some prev => rfl
  rw [inodeUncacheNode, if_neg (not_lt.mpr hmax), hrest]
  refine (if_neg hgt).trans ?_
  rw [hlast, hi]

omit hsorted h in
theorem inodeCacheNodeEx_found (hmax : i ≤ c.maxCached) (hrest : c.rest i = ent :: after)
    (hi : ent.inode = i) (node : N) : inodeCacheNodeEx c i node = (ent.node, { c with
      nodes := c.before i ++
        { ent with referenceCount := wrap32 (ent.referenceCount + 1) } :: after }) := by
  have hsame : (if i > c.maxCached then i else c.maxCached) = c.maxCached :=
    if_neg (not_lt.mpr hmax)
  rw [inodeCacheNodeEx, hsame]
  rw [hrest]
  exact if_pos hi

theorem inodeCacheNodeEx_create (node : N) : inodeCacheNodeEx c i node = (node,
      ⟨c.before i ++ ⟨i, 1, node⟩ :: c.rest i, if i > c.maxCached then i else c.maxCached⟩) := by
  rw [inodeCacheNodeEx]
  split
  · rfl
  · rename_i ent after hrest
    exact if_neg (lt_rest_head hsorted h hrest).ne'

end Calls

variable {s : State N}

theorem Kept.sorted (h : Kept s) : (s.cache.nodes.map Entry.inode).Pairwise (· < ·) :=
  h.ordered.sorted

theorem Kept.le_max (h : Kept s) (hc : Listed s.cache i) : i ≤ s.cache.maxCached :=
  h.ordered.bound i (listed_iff_mem.mp hc)

theorem outstanding_of_not_cached (h : ¬ Cached s i) : outstanding s i ≤ 0 := by
  simp only [Cached, outstanding] at h ⊢
  omega

section

variable (h : Kept s) (hrest : s.cache.rest i = ent :: after) (hi : ent.inode = i)
include h hrest hi

theorem Kept.others
    {e : Entry N} (he : e ∈ s.cache.before i ++ after) : e ∈ s.cache.nodes ∧ e.inode ≠ i := by
  rw [nodes_cons hrest]
  rcases mem_append.mp he with he | he
  · exact ⟨mem_append_left _ he, ne_of_lt (before_lt he)⟩
  · refine ⟨mem_append_right _ (mem_cons_of_mem ent he), ?_⟩
    rw [← hi]
    exact ne_of_gt (rest_gt h.sorted hrest he)

theorem Kept.listed_others {j : Inode} (hj : j ≠ i) :
    (∃ e ∈ s.cache.before i ++ after, e.inode = j) ↔ Cached s j := by
  rw [← h.listed]
  constructor
  · rintro ⟨e, he, rfl⟩
    exact ⟨e, (h.others hrest hi he).1, rfl⟩
  · rintro ⟨e, he, rfl⟩
    rw [nodes_cons hrest] at he
    refine ⟨e, (mem_cons.mp (perm_middle.mem_iff.mp he)).resolve_left ?_, rfl⟩
    rintro rfl
    exact hj hi

theorem Kept.recount {n : ℤ} {r u : Inode → ℕ} (hr : ∀ j, j ≠ i → r j = s.returned j)
    (hu : ∀ j, j ≠ i → u j = s.uncached j) (hn : n = r i - u i)
    (hpos : 0 < n ∧ n < 2 ^ 31) :
    Kept ⟨{ s.cache with nodes := s.cache.before i ++ { ent with referenceCount := n } :: after },
      s.inserted, r, u⟩ := by
  have hnodes := nodes_cons hrest
  have hsplit (e : Entry N) : e ∈ s.cache.before i ++ { ent with referenceCount := n } :: after ↔
      e = { ent with referenceCount := n } ∨ e ∈ s.cache.before i ++ after :=
    perm_middle.mem_iff.trans mem_cons
  constructor
  case ordered =>
    have hordered := h.ordered
    rw [hnodes] at hordered
    simpa using hordered
  case listed =>
    intro j
    by_cases hj : j = i
    · refine iff_of_true ⟨_, (hsplit _).mpr (.inl rfl), hi.trans hj.symm⟩ ?_
      rw [hj]
      change u i < r i
      omega
    · have hothers := h.listed_others hrest hi hj
      simp only [Listed, Cached, hsplit, hr j hj, hu j hj] at hothers ⊢
      rw [← hothers]
      constructor
      · rintro ⟨e, rfl | he, rfl⟩
        · exact absurd hi hj
        · exact ⟨e, he, rfl⟩
      · exact fun ⟨e, he, hej⟩ => ⟨e, .inr he, hej⟩
  case node =>
    intro e he
    rcases (hsplit e).mp he with rfl | he
    · exact h.node ent (by simp [hnodes])
    · exact h.node e (h.others hrest hi he).1
  case count =>
    intro e he
    change e.referenceCount = r e.inode - u e.inode
    rcases (hsplit e).mp he with rfl | he
    · change n = r ent.inode - u ent.inode
      rw [hi, hn]
    · obtain ⟨hmem, hne⟩ := h.others hrest hi he
      rw [hr _ hne, hu _ hne]
      exact h.count e hmem
  case positive =>
    intro e he
    rcases (hsplit e).mp he with rfl | he
    · exact hpos
    · exact h.positive e (h.others hrest hi he).1

theorem Kept.ent_count : ent.referenceCount = outstanding s i ∧
    (0 < ent.referenceCount ∧ ent.referenceCount < 2 ^ 31) ∧
    wrap32 (ent.referenceCount - 1) = ent.referenceCount - 1 := by
  have hmem : ent ∈ s.cache.nodes := by simp [nodes_cons hrest]
  have hpos := h.positive ent hmem
  exact ⟨hi ▸ h.count ent hmem, hpos, wrap32_eq (by omega) (by omega)⟩

theorem Kept.take (hlegal : outstanding s i < 2 ^ 31 - 1) : Kept (State.take { s with
      cache := { s.cache with
        nodes := s.cache.before i ++
          { ent with referenceCount := wrap32 (ent.referenceCount + 1) } :: after } } i) := by
  obtain ⟨hcount, hpos, -⟩ := h.ent_count hrest hi
  have hwrap : wrap32 (ent.referenceCount + 1) = ent.referenceCount + 1 := by
    apply wrap32_eq
    · omega
    · omega
  refine h.recount hrest hi ?_ (fun _ _ => rfl) ?_ ?_
  · exact fun j hj => update_of_ne hj _ _
  · rw [hwrap, hcount, update_self, outstanding]
    push_cast
    omega
  · exact ⟨by omega, by omega⟩

end

section

variable (h : Kept s)
include h

/-- A cached node is on the list where the search of the calls stops. -/
theorem Kept.search (hc : Cached s i) : i ≤ s.cache.maxCached ∧
    ∃ ent after, s.cache.rest i = ent :: after ∧ ent.inode = i ∧ s.inserted i = some ent.node := by
  have hlisted := (h.listed i).mpr hc
  obtain ⟨ent, after, hrest, hi⟩ := (listed_iff h.sorted).mp hlisted
  exact ⟨h.le_max hlisted, ent, after, hrest, hi, hi ▸ h.node ent (by simp [nodes_cons hrest])⟩

theorem cacheNode_kept {node : N} (hlegal : Legal s (.cacheNode i node)) :
    Kept (next s (.cacheNode i node)) := by
  by_cases hc : Cached s i
  · obtain ⟨hmax, ent, after, hrest, hi, -⟩ := h.search hc
    rw [next, inodeCacheNodeEx_found hmax hrest hi]
    exact (if_pos hc).symm ▸ h.take hrest hi hlegal
  have hnone : ¬ Listed s.cache i := mt (h.listed i).mp hc
  rw [next, inodeCacheNodeEx_create h.sorted hnone]
  refine (if_neg hc).symm ▸ ?_
  have hnodes := nodes_eq s.cache i
  have hne {e : Entry N} (he : e ∈ s.cache.nodes) : e.inode ≠ i := fun hi => hnone ⟨e, he, hi⟩
  have hrest {e : Entry N} (he : e ∈ s.cache.rest i) : i < e.inode :=
    lt_of_le_of_ne (rest_ge h.sorted he) (hne (hnodes ▸ mem_append_right _ he)).symm
  have hsplit (e : Entry N) : e ∈ s.cache.before i ++ ⟨i, 1, node⟩ :: s.cache.rest i ↔
      e = ⟨i, 1, node⟩ ∨ e ∈ s.cache.nodes := by
    rw [hnodes]
    exact perm_middle.mem_iff.trans mem_cons
  constructor
  case ordered =>
    have hordered := h.ordered
    rw [hnodes, map_append] at hordered
    rw [map_append, map_cons]
    refine hordered.insert ?_ ?_
    · intro j hj
      obtain ⟨e, he, rfl⟩ := mem_map.mp hj
      exact before_lt he
    · intro j hj
      obtain ⟨e, he, rfl⟩ := mem_map.mp hj
      exact hrest he
  case listed =>
    intro j
    by_cases hj : j = i
    · refine iff_of_true ⟨_, (hsplit _).mpr (.inl rfl), hj.symm⟩ ?_
      simp [Cached, hj]
    · have hold := h.listed j
      simp only [Listed, Cached, hsplit, update_of_ne hj] at hold ⊢
      rw [← hold]
      constructor
      · rintro ⟨e, rfl | he, rfl⟩
        · exact absurd rfl hj
        · exact ⟨e, he, rfl⟩
      · exact fun ⟨e, he, hej⟩ => ⟨e, .inr he, hej⟩
  case node =>
    intro e he
    rcases (hsplit e).mp he with rfl | he
    · exact update_self ..
    · exact (update_of_ne (hne he) ..).trans (h.node e he)
  case count =>
    intro e he
    change e.referenceCount = (update s.returned i 1 e.inode : ℤ) - update s.uncached i 0 e.inode
    rcases (hsplit e).mp he with rfl | he
    · rw [update_self, update_self]
      rfl
    · rw [update_of_ne (hne he), update_of_ne (hne he)]
      exact h.count e he
  case positive =>
    intro e he
    rcases (hsplit e).mp he with rfl | he
    · exact ⟨Int.one_pos, by simp⟩
    · exact h.positive e he

theorem getCache_kept (hlegal : Legal s (.getCache i)) : Kept (next s (.getCache i)) := by
  by_cases hc : Cached s i
  · obtain ⟨hmax, ent, after, hrest, hi, -⟩ := h.search hc
    rw [next, inodeGetCache_found hmax hrest hi]
    exact (if_pos hc).symm ▸ h.take hrest hi hlegal
  · rw [next, inodeGetCache_missing h.sorted (mt (h.listed i).mp hc)]
    exact (if_neg hc).symm ▸ h

theorem Kept.free (hrest : s.cache.rest i = ent :: after) (hi : ent.inode = i)
    {u : Inode → ℕ} (hu : ∀ j, j ≠ i → u j = s.uncached j) (hlast : s.returned i ≤ u i) :
    Kept ⟨⟨s.cache.before i ++ after, if i = s.cache.maxCached
        then ((s.cache.before i).map Entry.inode).getLast?.getD 0 else s.cache.maxCached⟩,
      s.inserted, s.returned, u⟩ := by
  have hnodes := nodes_cons hrest
  constructor
  case ordered =>
    have hordered := h.ordered
    rw [hnodes, map_append, map_cons, hi] at hordered
    rw [map_append]
    exact hordered.remove
  case listed =>
    intro j
    by_cases hj : j = i
    · subst hj
      refine iff_of_false ?_ (not_lt.mpr hlast)
      rintro ⟨e, he, hej⟩
      exact (h.others hrest hi he).2 hej
    · have hothers := h.listed_others hrest hi hj
      simp only [Listed, Cached, hu j hj] at hothers ⊢
      exact hothers
  case node => exact fun e he => h.node e (h.others hrest hi he).1
  case count =>
    intro e he
    obtain ⟨hmem, hne⟩ := h.others hrest hi he
    change e.referenceCount = s.returned e.inode - u e.inode
    rw [hu _ hne]
    exact h.count e hmem
  case positive => exact fun e he => h.positive e (h.others hrest hi he).1

theorem uncacheNode_kept : Kept (next s (.uncacheNode i)) := by
  by_cases hc : Cached s i
  · obtain ⟨hmax, ent, after, hrest, hi, -⟩ := h.search hc
    obtain ⟨hcount, hpos, hwrap⟩ := h.ent_count hrest hi
    have hother : ∀ j, j ≠ i → update s.uncached i (s.uncached i + 1) j = s.uncached j :=
      fun j hj => update_of_ne hj _ _
    rw [next, inodeUncacheNode_found hmax hrest hi, hwrap]
    refine (if_pos hc).symm ▸ ?_
    rw [outstanding] at hcount
    by_cases hzero : ent.referenceCount - 1 = 0
    · have hlast : s.returned i ≤ update s.uncached i (s.uncached i + 1) i := by
        rw [update_self]
        omega
      rw [if_pos hzero]
      exact h.free hrest hi hother hlast
    · rw [if_neg hzero]
      refine h.recount hrest hi (fun _ _ => rfl) hother ?_ ⟨by omega, by omega⟩
      rw [update_self]
      push_cast
      omega
  · rw [next, inodeUncacheNode_missing h.sorted (mt (h.listed i).mp hc)]
    exact (if_neg hc).symm ▸ h

theorem Kept.finds (i : Inode) :
    (inodeGetCache s.cache i).1 = if Cached s i then s.inserted i else none := by
  by_cases hc : Cached s i
  · obtain ⟨hmax, ent, after, hrest, hi, hnode⟩ := h.search hc
    rw [inodeGetCache_found hmax hrest hi, if_pos hc, hnode]
  · rw [inodeGetCache_missing h.sorted (mt (h.listed i).mp hc), if_neg hc]

theorem Kept.caches (i : Inode) (node : N) :
    some (inodeCacheNodeEx s.cache i node).1 = if Cached s i then s.inserted i else some node := by
  by_cases hc : Cached s i
  · obtain ⟨hmax, ent, after, hrest, hi, hnode⟩ := h.search hc
    rw [inodeCacheNodeEx_found hmax hrest hi, if_pos hc, hnode]
  · rw [inodeCacheNodeEx_create h.sorted (mt (h.listed i).mp hc), if_neg hc]

theorem Kept.releases (i : Inode) : Releases s i (inodeUncacheNode s.cache i) := by
  by_cases hc : Cached s i
  · obtain ⟨hmax, ent, after, hrest, hi, hnode⟩ := h.search hc
    obtain ⟨hcount, hpos, hwrap⟩ := h.ent_count hrest hi
    have hnodes := nodes_cons hrest
    rw [inodeUncacheNode_found hmax hrest hi, hwrap]
    by_cases hzero : ent.referenceCount - 1 = 0
    · rw [if_pos hzero]
      refine ⟨iff_of_true rfl (by omega), fun _ => ⟨⟨_, rfl, hi, hnode⟩, ?_⟩,
        fun hne => absurd rfl hne⟩
      have hkeep : ∀ e ∈ s.cache.before i ++ after, decide (e.inode ≠ i) = true :=
        fun e he => decide_eq_true (h.others hrest hi he).2
      change s.cache.before i ++ after = _
      rw [hnodes, filter_append, filter_cons_of_neg (by simp [hi]), ← filter_append]
      exact (filter_eq_self.mpr hkeep).symm
    · rw [if_neg hzero]
      refine ⟨iff_of_false (by simp) (by omega),
        fun hone => absurd hone (by simp), fun _ => ⟨.inl rfl, rfl, ?_⟩⟩
      rw [hnodes]
      simp
  · have hout := outstanding_of_not_cached hc
    rw [inodeUncacheNode_missing h.sorted (mt (h.listed i).mp hc)]
    exact ⟨iff_of_false (by simp) (by omega), fun hone => absurd hone (by simp),
      fun _ => ⟨.inr rfl, rfl, rfl⟩⟩

end

theorem step_kept (s : State N) (op : Op N) (h : Kept s) (hlegal : Legal s op) :
    ∃ s', step s op = some s' ∧ Kept s' := by
  refine ⟨next s op, rfl, ?_⟩
  cases op with
  | cacheNode i node => exact cacheNode_kept h hlegal
  | getCache i => exact getCache_kept h hlegal
  | uncacheNode i => exact uncacheNode_kept h

structure Start (s : State N) : Prop where
  nodes : s.cache.nodes = []
  maxCached : s.cache.maxCached = 0
  fresh : ∀ i, ¬ Cached s i

theorem Start.kept (h : Start s) : Kept s := by
  have hnone (e : Entry N) : e ∉ s.cache.nodes := by
    rw [h.nodes]
    exact not_mem_nil
  constructor
  case ordered =>
    rw [h.nodes, h.maxCached]
    exact ⟨List.Pairwise.nil, fun _ hi => (by cases hi), fun hne => absurd rfl hne, fun _ => rfl⟩
  case listed => exact fun i => iff_of_false (fun ⟨e, he, _⟩ => hnone e he) (h.fresh i)
  all_goals exact fun e he => absurd he (hnone e)

/-- As long as `int` counts the references, the cache is in order after every run of calls. -/
theorem cache_kept {ops : List (Op N)} (hstart : Start s) (hlegal : Along step Legal s ops) :
    ∃ s', run step s ops = some s' ∧ Kept s' ∧
      (∀ i, (inodeGetCache s'.cache i).1 = if Cached s' i then s'.inserted i else none) ∧
      (∀ i node, some (inodeCacheNodeEx s'.cache i node).1 =
        if Cached s' i then s'.inserted i else some node) ∧
      ∀ i, Releases s' i (inodeUncacheNode s'.cache i) := by
  obtain ⟨s', hs', hkept⟩ := run_total step_kept hstart.kept hlegal
  exact ⟨s', hs', hkept, hkept.finds, hkept.caches, hkept.releases⟩

instance (s : State N) : DecidablePred (Legal s) := fun c => by
  cases c <;> dsimp only [Legal] <;> infer_instance

def sampleState : State Unit := ⟨⟨[], 0⟩, fun _ => none, fun _ => 0, fun _ => 0⟩

def sampleOps : List (Op Unit) :=
  [.cacheNode 9 (), .cacheNode 4 (), .getCache 9, .uncacheNode 9, .uncacheNode 4]

theorem gets_count {r : ℤ} {x : N} (hs : s.cache = ⟨[⟨i, wrap32 r, x⟩], i⟩) (n : ℕ) :
    ∃ s', run step s (replicate n (.getCache i)) = some s' ∧
      s'.cache = ⟨[⟨i, wrap32 (r + n), x⟩], i⟩ := by
  induction n generalizing s r with
  | zero =>
    refine ⟨s, rfl, ?_⟩
    rw [hs]
    simp
  | succ n ih =>
    have hget : inodeGetCache s.cache i = (some x, ⟨[⟨i, wrap32 (r + 1), x⟩], i⟩) := by
      have hwrap : wrap32 (wrap32 r + 1) = wrap32 (r + 1) := by
        simp [wrap32]
      rw [hs]
      simp [inodeGetCache, Cache.rest, Cache.before, hwrap]
    have hnext : (next s (.getCache i)).cache = ⟨[⟨i, wrap32 (r + 1), x⟩], i⟩ := by
      rw [next, hget]
      dsimp only
      split <;> rfl
    obtain ⟨s', hrun, hs'⟩ := ih hnext
    refine ⟨s', hrun, ?_⟩
    rw [hs']
    push_cast
    rw [Int.add_assoc, Int.add_comm 1]

theorem sample_cache_kept : ∃ s, run step sampleState sampleOps = some s ∧ Kept s ∧
    s.cache.nodes.map Entry.inode = [9] ∧ s.cache.maxCached = 9 := by
  have hlegal : Along step Legal sampleState sampleOps := by decide +kernel
  obtain ⟨s, hs, hkept, -⟩ :=
    cache_kept (s := sampleState) ⟨rfl, rfl, fun _ => Nat.lt_irrefl 0⟩ hlegal
  have heval : (run step sampleState sampleOps).map
      (fun s => (s.cache.nodes.map Entry.inode, s.cache.maxCached)) = some ([9], 9) := by
    decide +kernel
  rw [hs] at heval
  obtain ⟨hnodes, hmax⟩ := Prod.mk.inj (some.inj heval)
  exact ⟨s, hs, hkept, hnodes, hmax⟩

/-- One reference more than an `int` can count -/
theorem count_wraps : (run step sampleState
    (.cacheNode 5 () :: List.replicate (2 ^ 31 - 1) (.getCache 5))).map
      (fun s => s.cache.nodes.map Entry.referenceCount) = some [-2 ^ 31] := by
  have hfirst : (next sampleState (.cacheNode 5 ())).cache = ⟨[⟨5, wrap32 1, ()⟩], 5⟩ := by
    decide +kernel
  have hcount (n : ℕ) : (run step sampleState
      (.cacheNode 5 () :: List.replicate n (.getCache 5))).map
        (fun s => s.cache.nodes.map Entry.referenceCount) = some [wrap32 (1 + n)] := by
    obtain ⟨s', hrun, hs'⟩ := gets_count hfirst n
    change Option.map _ (run step (next sampleState (.cacheNode 5 ())) _) = _
    rw [hrun, Option.map_some, hs']
    rfl
  have hwrap : wrap32 (1 + (2 ^ 31 - 1 : ℕ)) = -2 ^ 31 := by
    decide +kernel
  rw [hcount, hwrap]

end InodeCache
