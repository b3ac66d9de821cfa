import Mathlib.Data.List.TakeWhile
import Mathlib.Algebra.Order.Ring.Int
import Acess2.GuardedRuns
import Acess2.IntrusiveLists

/-! The cache of hardware addresses (`hwaddr_cache.c`), for one type of address. Entries are
numbers in the order of their allocation; a step runs while the lock is held. The time a thread
waits is not modelled: it may come back from the semaphore at any time. -/
namespace HwAddrCache

open Function GuardedRuns IntrusiveLists List Option

section Model

variable {α μ : Type*} [DecidableEq α] [Zero μ]

/-- `tHWAddrCache` with its entries, and for every waiting thread the entry it waits on -/
structure Cache (α μ : Type*) where
  next : ℕ → Option ℕ
  waitingCount : ℕ → ℕ
  l3Addr : ℕ → α
  hwAddr : ℕ → μ
  first : Option ℕ
  nAddrs : ℕ
  waiters : List ℕ

inductive Halt where
  | assertion
  | null
  | endless
  deriving DecidableEq

section

variable (c : Cache α μ)

def linkAfter (last p : Option ℕ) : Cache α μ :=
  match last with
  | none => { c with first := p }
  | some l => { c with next := update c.next l p }

def toFront (last : Option ℕ) (ca : ℕ) : Cache α μ :=
  let c := linkAfter c last (c.next ca)
  { c with next := update c.next ca c.first, first := some ca }

def newEntry (l3Addr : α) (hwAddr : μ) : Cache α μ :=
  { c with
    next := update c.next c.nAddrs none
    waitingCount := update c.waitingCount c.nAddrs 0
    l3Addr := update c.l3Addr c.nAddrs l3Addr
    hwAddr := update c.hwAddr c.nAddrs hwAddr
    nAddrs := c.nAddrs + 1 }

def wait (ca : ℕ) : Cache α μ :=
  { c with
    waitingCount := update c.waitingCount ca (c.waitingCount ca + 1)
    waiters := ca :: c.waiters }

def resolveFound (last : Option ℕ) (ca : ℕ) : Except Halt (Cache α μ) :=
  if c.first ≠ some ca ∧ last = none then .error .assertion
  else
    let c := if c.first ≠ some ca then toFront c last ca else c
    if 0 < c.waitingCount ca then
      if c.waitingCount ca = 2 ^ 32 - 1 then .error .assertion else .ok (wait c ca)
    else .ok c

end

def resolveNew (type : ℤ) (maxSize : ℕ) (c : Cache α μ) (last : Option ℕ) (dest : α) :
    Except Halt (Cache α μ) :=
  if maxSize ≤ c.nAddrs then
    if c.nAddrs ≠ maxSize ∨ last = none then .error .assertion
    -- the entry asked for its `WaitingCount` is the one that was not found
    else .error .null
  else
    let ca := c.nAddrs
    let c := newEntry c dest 0
    let c := wait (if c.first ≠ some ca then toFront c last ca else c) ca
    if type = 4 then .ok c else .error .assertion

/-- `HWCache_Resolve` up to where the lock is released -/
def resolve (type : ℤ) (maxSize : ℕ) (c : Cache α μ) (dest : α) : Except Halt (Cache α μ) :=
  match sweep c.next (c.l3Addr · = dest) (fun _ a => some a) (c.nAddrs + 1) none c.first with
  | none => .error .endless
  | some (last, some ca) => resolveFound c last ca
  | some (last, none) => resolveNew type maxSize c last dest

def result (c : Cache α μ) (ca : ℕ) : Except Halt (Cache α μ) :=
  if c.waitingCount ca = 0 then .error .assertion
  else .ok { c with
    waitingCount := update c.waitingCount ca (c.waitingCount ca - 1)
    waiters := c.waiters.erase ca }

def set (maxSize : ℕ) (c : Cache α μ) (l3Addr : α) (hwAddr : μ) : Except Halt (Cache α μ) :=
  match sweep c.next (c.l3Addr · = l3Addr)
    (fun b a => (some a, if c.waitingCount a = 0 then some a else b.2)) (c.nAddrs + 1)
    ((none, none) : Option ℕ × Option ℕ) c.first with
  | none => .error .endless
  | some (_, some ca) =>
    .ok (if c.waitingCount ca ≠ 0 then { c with hwAddr := update c.hwAddr ca hwAddr }
      else c)
  | some ((last, lastUnused), none) =>
    if c.nAddrs < maxSize then .ok (linkAfter (newEntry c l3Addr hwAddr) last (some c.nAddrs))
    else
      match lastUnused with
      | some ca => .ok { c with
          l3Addr := update c.l3Addr ca l3Addr
          hwAddr := update c.hwAddr ca hwAddr }
      | none => .ok c

inductive Op (α μ : Type*) where
  | resolve (dest : α)
  | result (ca : ℕ)
  | set (l3Addr : α) (hwAddr : μ)

def exec (type : ℤ) (maxSize : ℕ) (c : Cache α μ) : Op α μ → Except Halt (Cache α μ)
  | .resolve dest => resolve type maxSize c dest
  | .result ca => if ca ∈ c.waiters then result c ca else .ok c
  | .set l3Addr hwAddr => set maxSize c l3Addr hwAddr

def step (type : ℤ) (maxSize : ℕ) (c : Cache α μ) (op : Op α μ) : Option (Cache α μ) :=
  (exec type maxSize c op).toOption

def empty [Inhabited α] : Cache α μ :=
  ⟨fun _ => none, fun _ => 0, fun _ => default, fun _ => 0, none, 0, []⟩

end Model

variable {α μ : Type*}

/-- The entries of the cache are `xs`, with different addresses. -/
structure Sound (maxSize : ℕ) (c : Cache α μ) (xs : List ℕ) : Prop where
  linked : Linked c.next c.first xs
  nodup : xs.Nodup
  mem : ∀ a, a ∈ xs ↔ a < c.nAddrs
  size : c.nAddrs ≤ maxSize
  distinct : ∀ a ∈ xs, ∀ b ∈ xs, c.l3Addr a = c.l3Addr b → a = b
  waiting : ∀ a, c.waitingCount a = c.waiters.count a
  inside : ∀ a ∈ c.waiters, a < c.nAddrs

/-- No entry that is waited on has been given another address. -/
def Steady (c c' : Cache α μ) : Prop :=
  ∀ a, 0 < c.waitingCount a → c'.l3Addr a = c.l3Addr a

/-- There is room for an address that is looked up for the first time. -/
def Guard (maxSize : ℕ) (c : Cache α μ) : Op α μ → Prop
  | .resolve dest => (∃ a < c.nAddrs, c.l3Addr a = dest) ∨ c.nAddrs < maxSize
  | _ => True

instance [DecidableEq α] (maxSize : ℕ) (c : Cache α μ) : DecidablePred (Guard maxSize c) :=
  fun c => by
  cases c <;> dsimp only [Guard] <;> infer_instance

variable {type : ℤ} {maxSize : ℕ} {c c' : Cache α μ} {xs : List ℕ} {dest : α} {hw : μ} {ca : ℕ}

theorem Sound.length_eq (h : Sound maxSize c xs) : xs.length = c.nAddrs := by
  have hperm : xs.Perm (range c.nAddrs) :=
    (perm_ext_iff_of_nodup h.nodup nodup_range).mpr fun a => by simp [h.mem]
  simpa using hperm.length_eq

theorem foldl_last (ys : List ℕ) (b : Option ℕ) :
    ys.foldl (fun _ a => some a) b = ys.getLast?.or b := by
  induction ys generalizing b with
  | nil => rfl
  | cons y ys ih =>
    rw [foldl_cons, ih]
    cases ys <;> simp [getLast?_cons]

variable {ys zs : List ℕ}

theorem Sound.toFront (h : Sound maxSize c (ys ++ ca :: zs)) (hys : ys ≠ []) :
    Sound maxSize (toFront c ys.getLast? ca) (ca :: (ys ++ zs)) := by
  obtain ⟨ws, l, rfl⟩ := (eq_nil_or_concat ys).resolve_left hys
  rw [concat_eq_append] at h ⊢
  have hmid := nodup_middle.mp h.nodup
  have hca := (nodup_cons.mp hmid).1
  have hlinked := h.linked
  simp only [append_assoc, cons_append, nil_append] at hlinked
  have hl : l ∉ ws ++ zs := by
    have hrest := (nodup_cons.mp hmid).2
    simp only [append_assoc, cons_append, nil_append] at hrest
    exact (nodup_cons.mp (nodup_middle.mp hrest)).1
  have hne : ∀ z ∈ (ws ++ [l]) ++ zs, z ≠ ca := fun z hz hzca => hca (hzca ▸ hz)
  have hcut : Linked (update (update c.next l (c.next ca)) ca c.first) c.first (ws ++ l :: zs) := by
    refine hlinked.cut ?_ fun z hz => ?_
    · rw [update_of_ne (hne l (by simp)), update_self]
    · have hzl : z ≠ l := fun hzl => hl (hzl ▸ hz)
      have hzca : z ≠ ca := hne z (by simpa using Or.imp_right .inr (mem_append.mp hz))
      rw [update_of_ne hzca, update_of_ne hzl]
  have hsame : ∀ a, a ∈ ca :: ((ws ++ [l]) ++ zs) ↔ a ∈ (ws ++ [l]) ++ ca :: zs := fun a =>
    perm_middle.mem_iff.symm
  have hfront : HwAddrCache.toFront c (ws ++ [l]).getLast? ca = { c with
        next := update (update c.next l (c.next ca)) ca c.first
        first := some ca } := by
    simp [HwAddrCache.toFront, linkAfter]
  rw [hfront]
  refine { h with
    linked := ⟨rfl, ?_⟩, nodup := hmid, mem := fun a => (hsame a).trans (h.mem a),
    distinct := fun a ha b hb => h.distinct a ((hsame a).mp ha) b ((hsame b).mp hb) }
  simpa using hcut

section

variable (h : Sound maxSize c xs)
include h

theorem Sound.wait (hca : ca < c.nAddrs) : Sound maxSize (wait c ca) xs := by
  refine { h with waiting := fun a => ?_, inside := ?_ }
  · by_cases ha : a = ca
    · subst ha
      simp [HwAddrCache.wait, h.waiting]
    · simp [HwAddrCache.wait, ha, h.waiting, Ne.symm ha]
  · simpa [HwAddrCache.wait] using ⟨hca, h.inside⟩

omit h in
theorem resolveFound_spec (h : Sound maxSize c (ys ++ ca :: zs))
    (hrun : resolveFound c ys.getLast? ca = .ok c') :
    (∃ xs, Sound maxSize c' xs) ∧ Steady c c' := by
  have hca : ca < c.nAddrs := (h.mem ca).mp (by simp)
  have hmoved :
      ∃ xs, Sound maxSize (if c.first ≠ some ca then toFront c ys.getLast? ca else c) xs := by
    split_ifs with hfirst
    · refine ⟨_, h.toFront ?_⟩
      rintro rfl
      exact hfirst h.linked.1
    · exact ⟨_, h⟩
  have hsame : ∀ c₁, c₁ = (if c.first ≠ some ca then toFront c ys.getLast? ca else c) →
      c₁.nAddrs = c.nAddrs ∧ c₁.l3Addr = c.l3Addr := by
    rintro c₁ rfl
    split_ifs
    · cases ys.getLast? <;> exact ⟨rfl, rfl⟩
    · exact ⟨rfl, rfl⟩
  simp only [resolveFound] at hrun
  generalize (if c.first ≠ some ca then toFront c ys.getLast? ca else c) = c₁ at *
  obtain ⟨xs, hxs⟩ := hmoved
  obtain ⟨hn, hl3⟩ := hsame c₁ rfl
  split_ifs at hrun with hbad hwait hmax
  · cases hrun
    exact ⟨⟨xs, hxs.wait (hn ▸ hca)⟩, fun a _ => congrFun hl3 a⟩
  · cases hrun
    exact ⟨⟨xs, hxs⟩, fun a _ => congrFun hl3 a⟩

theorem Sound.insert {next : ℕ → Option ℕ} {first : Option ℕ} (hroom : c.nAddrs < maxSize)
    (hnew : ∀ a ∈ xs, c.l3Addr a ≠ dest) (hys : ys.Perm (c.nAddrs :: xs))
    (hlinked : Linked next first ys) :
    Sound maxSize { newEntry c dest hw with next := next, first := first } ys := by
  have hfresh : c.nAddrs ∉ xs := fun hm => lt_irrefl _ ((h.mem _).mp hm)
  have hold : ∀ a ∈ xs, (newEntry c dest hw).l3Addr a = c.l3Addr a := fun a ha =>
    update_of_ne (fun heq : a = c.nAddrs => hfresh (heq ▸ ha)) ..
  have hself : (newEntry c dest hw).l3Addr c.nAddrs = dest := update_self ..
  refine ⟨hlinked, hys.nodup_iff.mpr (nodup_cons.mpr ⟨hfresh, h.nodup⟩), fun a => ?_,
    hroom, fun a ha b hb hab => ?_, fun a => ?_, fun a ha => Nat.lt_succ_of_lt (h.inside a ha)⟩
  · rw [hys.mem_iff, mem_cons, h.mem]
    simp only [newEntry]
    omega
  · rw [hys.mem_iff, mem_cons] at ha hb
    change (newEntry c dest hw).l3Addr a = (newEntry c dest hw).l3Addr b at hab
    rcases ha with rfl | ha <;> rcases hb with rfl | hb
    · rfl
    · rw [hself, hold b hb] at hab
      exact absurd hab.symm (hnew b hb)
    · rw [hself, hold a ha] at hab
      exact absurd hab (hnew a ha)
    · rw [hold a ha, hold b hb] at hab
      exact h.distinct a ha b hb hab
  · by_cases ha : a = c.nAddrs
    · subst ha
      have hnone : c.waiters.count c.nAddrs = 0 :=
        count_eq_zero.mpr fun hm => lt_irrefl _ (h.inside _ hm)
      simp [newEntry, hnone]
    · simp [newEntry, ha, h.waiting]

omit h in
theorem steady_newEntry (hw : μ) (h : Sound maxSize c xs) : Steady c (newEntry c dest hw) := by
  intro a ha
  refine update_of_ne ?_ ..
  rintro rfl
  rw [h.waiting, count_pos_iff] at ha
  exact lt_irrefl _ (h.inside _ ha)

theorem Sound.linked_new (p : Option ℕ) : Linked (update c.next c.nAddrs p) c.first xs := by
  refine h.linked.congr fun a ha => update_of_ne ?_ ..
  rintro rfl
  exact lt_irrefl _ ((h.mem _).mp ha)

theorem resolveNew_spec [Zero μ] (hnew : ∀ a ∈ xs, c.l3Addr a ≠ dest)
    (hroom : c.nAddrs < maxSize) (hrun : resolveNew type maxSize c xs.getLast? dest = .ok c') :
    (∃ ys, Sound maxSize c' ys) ∧ Steady c c' := by
  have hfresh : c.nAddrs ∉ xs := fun hm => lt_irrefl _ ((h.mem _).mp hm)
  have hfirst : c.first ≠ some c.nAddrs := by
    rw [h.linked.head_eq]
    exact fun hm => hfresh (mem_of_head? hm)
  -- the last entry is linked to nothing, as it was
  have hmoved : toFront (newEntry c dest 0) xs.getLast? c.nAddrs = { newEntry c dest 0 with
        next := update c.next c.nAddrs c.first, first := some c.nAddrs } := by
    rcases eq_nil_or_concat xs with rfl | ⟨ws, l, rfl⟩
    · have hnone : c.first = none := h.linked
      simp [toFront, linkAfter, newEntry, hnone]
    rw [concat_eq_append] at h hfresh ⊢
    have hl : c.next l = none := h.linked.next_eq
    have hne : l ≠ c.nAddrs := fun heq => hfresh (by simp [heq])
    have hsame : update (update c.next c.nAddrs none) l none = update c.next c.nAddrs none := by
      funext a
      by_cases ha : a = l
      · subst ha
        simp [hne, hl]
      · simp [ha]
    simp [toFront, linkAfter, newEntry, hsame]
  simp only [resolveNew, if_neg (not_le.mpr hroom)] at hrun
  rw [if_pos (show (newEntry c dest (0 : μ)).first ≠ some c.nAddrs from hfirst), hmoved] at hrun
  split_ifs at hrun
  cases hrun
  refine ⟨⟨c.nAddrs :: xs, Sound.wait (h.insert hroom hnew (List.Perm.refl _) ⟨rfl, ?_⟩)
    (Nat.lt_succ_self _)⟩, fun a ha => steady_newEntry (0 : μ) h a ha⟩
  rw [update_self]
  exact h.linked_new _

theorem result_spec (hca : ca ∈ c.waiters) :
    ∃ c', result c ca = .ok c' ∧ Sound maxSize c' xs ∧ Steady c c' := by
  have hpos : 0 < c.waitingCount ca := by
    rw [h.waiting]
    exact count_pos_iff.mpr hca
  refine ⟨_, if_neg hpos.ne', { h with waiting := fun a => ?_, inside := ?_ }, fun a _ => rfl⟩
  · by_cases ha : a = ca
    · subst ha
      simp [h.waiting]
    · simp [ha, h.waiting, count_erase_of_ne ha]
  · exact fun a ha => h.inside a (mem_of_mem_erase ha)

end

theorem foldl_unused (ys : List ℕ) (b : Option ℕ × Option ℕ) :
    ys.foldl (fun b a => (some a, if c.waitingCount a = 0 then some a else b.2)) b =
      (ys.getLast?.or b.1, ((ys.filter fun a => c.waitingCount a = 0).getLast?).or b.2) := by
  induction ys generalizing b with
  | nil => rfl
  | cons y ys ih =>
    rw [foldl_cons, ih]
    split_ifs with hy <;> simp_all [getLast?_cons]

variable [DecidableEq α]

theorem Sound.search (h : Sound maxSize c xs) {β : Type*} (gather : β → ℕ → β) (b : β) :
    sweep c.next (c.l3Addr · = dest) gather (c.nAddrs + 1) b c.first =
      some ((xs.takeWhile fun a => !decide (c.l3Addr a = dest)).foldl gather b,
        xs.find? (c.l3Addr · = dest)) :=
  sweep_eq h.linked (by rw [h.length_eq]; exact Nat.lt_succ_self _) b

theorem Sound.find_some (h : Sound maxSize c xs) :
    xs.find? (c.l3Addr · = dest) = some ca ↔ ca < c.nAddrs ∧ c.l3Addr ca = dest := by
  constructor
  · intro hfind
    exact ⟨(h.mem ca).mp (mem_of_find?_eq_some hfind), by simpa using find?_some hfind⟩
  · rintro ⟨hca, rfl⟩
    obtain ⟨a, ha⟩ := isSome_iff_exists.mp
      (find?_isSome (p := (c.l3Addr · = c.l3Addr ca)).mpr ⟨ca, (h.mem ca).mpr hca, by simp⟩)
    rw [ha, h.distinct a (mem_of_find?_eq_some ha) ca ((h.mem ca).mpr hca)
      (by simpa using find?_some ha)]

theorem Sound.find_none (h : Sound maxSize c xs) :
    xs.find? (c.l3Addr · = dest) = none ↔ ∀ a < c.nAddrs, c.l3Addr a ≠ dest := by
  simp [h.mem]

theorem takeWhile_all (hnew : ∀ a ∈ xs, c.l3Addr a ≠ dest) :
    (xs.takeWhile fun a => !decide (c.l3Addr a = dest)) = xs :=
  takeWhile_eq_self_iff.mpr fun a ha => by simpa using hnew a ha

theorem resolve_spec [Zero μ] (h : Sound maxSize c xs)
    (hguard : Guard maxSize c (.resolve dest : Op α μ)) :
    resolve type maxSize c dest ≠ .error .null ∧
      ∀ c', resolve type maxSize c dest = .ok c' → (∃ ys, Sound maxSize c' ys) ∧ Steady c c' := by
  rw [resolve, h.search, foldl_last, or_none]
  cases hfind : xs.find? (c.l3Addr · = dest) with
  | some ca =>
    obtain ⟨hca, ys, zs, rfl, hys⟩ := find?_eq_some_iff_append.mp hfind
    have htake : (ys ++ ca :: zs).takeWhile (fun a => !decide (c.l3Addr a = dest)) = ys := by
      rw [takeWhile_append_of_pos (by simpa using hys),
        takeWhile_cons_of_neg (by simpa using hca), append_nil]
    rw [htake]
    refine ⟨?_, fun c' => resolveFound_spec h⟩
    simp only [resolveFound]
    split_ifs <;> simp
  | none =>
    have hnew : ∀ a ∈ xs, c.l3Addr a ≠ dest := by simpa using hfind
    have hroom : c.nAddrs < maxSize := hguard.resolve_left fun ⟨a, ha, heq⟩ =>
      hnew a ((h.mem a).mpr ha) heq
    rw [takeWhile_all hnew]
    refine ⟨?_, fun c' => resolveNew_spec h hnew hroom⟩
    simp only [resolveNew, if_neg (not_le.mpr hroom)]
    split_ifs <;> simp

theorem set_spec (dest : α) (hw : μ) (h : Sound maxSize c xs) :
    ∃ c', set maxSize c dest hw = .ok c' ∧ (∃ ys, Sound maxSize c' ys) ∧ Steady c c' := by
  rw [set, h.search, foldl_unused, or_none, or_none]
  cases hfind : xs.find? (c.l3Addr · = dest) with
  | some ca =>
    refine ⟨_, rfl, ⟨xs, ?_⟩, fun a _ => ?_⟩ <;> split_ifs
    · exact { h with }
    · exact h
    · rfl
    · rfl
  | none =>
    have hnew : ∀ a ∈ xs, c.l3Addr a ≠ dest := by simpa using hfind
    rw [takeWhile_all hnew]
    split_ifs with hroom
    · refine ⟨_, rfl, ⟨xs ++ [c.nAddrs], ?_⟩, fun a ha => ?_⟩
      · rcases eq_nil_or_concat xs with rfl | ⟨ws, l, rfl⟩
        · refine h.insert hroom hnew (List.Perm.refl _) ⟨rfl, ?_⟩
          exact update_self ..
        · rw [concat_eq_append] at h hnew ⊢
          have hne : l ≠ c.nAddrs := by
            rintro rfl
            exact lt_irrefl _ ((h.mem _).mp (by simp))
          have hlast : (ws ++ [l]).getLast? = some l := by simp
          rw [hlast]
          refine h.insert hroom hnew (perm_append_comm) ?_
          rw [append_assoc]
          refine (h.linked_new none).splice (update_self ..) ?_ fun z hz => ?_
          · have hl : c.next l = none := h.linked.next_eq
            simp [newEntry, hne, hne.symm, hl]
          · refine update_of_ne ?_ ..
            rintro rfl
            have hnodup := h.nodup
            rw [append_nil] at hz
            exact (nodup_append.mp hnodup).2.2 z hz z (mem_singleton_self z) rfl
      · cases xs.getLast? <;> exact steady_newEntry hw h a ha
    · cases hu : (xs.filter fun a => c.waitingCount a = 0).getLast? with
      | none => exact ⟨c, rfl, ⟨xs, h⟩, fun a _ => rfl⟩
      | some ca =>
        obtain ⟨hca, hzero⟩ := mem_filter.mp (mem_of_getLast? hu)
        have hzero : c.waitingCount ca = 0 := by simpa using hzero
        refine ⟨_, rfl, ⟨xs, { h with distinct := fun a ha b hb hab => ?_ }⟩, fun a ha => ?_⟩
        · by_cases hac : a = ca <;> by_cases hbc : b = ca
          · rw [hac, hbc]
          · simp only [hac, update_self, update_of_ne hbc] at hab
            exact absurd hab.symm (hnew b hb)
          · simp only [hbc, update_self, update_of_ne hac] at hab
            exact absurd hab (hnew a ha)
          · simp only [update_of_ne hac, update_of_ne hbc] at hab
            exact h.distinct a ha b hb hab
        · refine update_of_ne ?_ ..
          rintro rfl
          omega

theorem exec_spec [Zero μ] (h : Sound maxSize c xs) {op : Op α μ} (hguard : Guard maxSize c op) :
    exec type maxSize c op ≠ .error .null ∧
      ∀ c', exec type maxSize c op = .ok c' → (∃ ys, Sound maxSize c' ys) ∧ Steady c c' := by
  cases op with
  | resolve dest => exact resolve_spec h hguard
  | result ca =>
    rw [exec]
    split_ifs with hca
    · obtain ⟨c', hc', hsound, hsteady⟩ := result_spec h hca
      rw [hc']
      refine ⟨by simp, fun c'' hc'' => ?_⟩
      cases hc''
      exact ⟨⟨xs, hsound⟩, hsteady⟩
    · refine ⟨by simp, fun c'' hc'' => ?_⟩
      cases hc''
      exact ⟨⟨xs, h⟩, fun a _ => rfl⟩
  | set l3Addr hwAddr =>
    obtain ⟨c', hc', hsound⟩ := set_spec l3Addr hwAddr h
    rw [exec, hc']
    refine ⟨by simp, fun c'' hc'' => ?_⟩
    cases hc''
    exact hsound

/-- As long as no new address is looked up in a full cache, the list is in order in every state, and
no step touches an entry that is not there or takes one that is waited on. -/
theorem cache_in_order [Zero μ] [Inhabited α] (type : ℤ) (maxSize : ℕ) (ops : List (Op α μ))
    {c : Cache α μ} (hguard : Along (step type maxSize) (Guard maxSize) empty ops)
    (hrun : run (step type maxSize) empty ops = some c) :
    (∃ xs, Sound maxSize c xs ∧ xs.length = c.nAddrs) ∧
      ∀ op, Guard maxSize c op → exec type maxSize c op ≠ .error .null ∧
        ∀ c', exec type maxSize c op = .ok c' → Steady c c' := by
  have hstep : ∀ (s : Cache α μ) op t, (∃ xs, Sound maxSize s xs) → Guard maxSize s op →
      step type maxSize s op = some t → ∃ xs, Sound maxSize t xs := by
    rintro s op t ⟨xs, h⟩ hop hstep
    rw [step] at hstep
    cases hexec : exec type maxSize s op with
    | error e => simp [hexec, Except.toOption] at hstep
    | ok t' =>
      obtain rfl : t' = t := by simpa [hexec, Except.toOption] using hstep
      exact ((exec_spec h hop).2 t' hexec).1
  have hempty : Sound maxSize (empty : Cache α μ) [] := by
    constructor <;> simp [empty, Linked]
  obtain ⟨xs, h⟩ := run_invariant hstep ⟨[], hempty⟩ hguard hrun
  refine ⟨⟨xs, h, h.length_eq⟩, fun op hop => ⟨(exec_spec h hop).1, fun c' hc' => ?_⟩⟩
  exact ((exec_spec h hop).2 c' hc').2

def twoWaiters : List (Op ℕ ℕ) :=
  [.set 1 7, .resolve 2, .resolve 2, .set 3 9, .set 2 8, .result 1, .result 1, .resolve 1]

theorem twoWaiters_in_order : Along (step 4 3) (Guard 3) empty twoWaiters ∧
      ∃ c, run (step 4 3) empty twoWaiters = some c ∧ (∃ xs, Sound 3 c xs ∧ xs.length = c.nAddrs) ∧
        ∀ op, Guard 3 c op → exec 4 3 c op ≠ .error .null ∧
          ∀ c', exec 4 3 c op = .ok c' → Steady c c' := by
  have hguard : Along (step 4 3) (Guard 3) empty twoWaiters := by decide +kernel
  obtain ⟨c, hc⟩ : ∃ c, run (step 4 3) empty twoWaiters = some c :=
    isSome_iff_exists.mp (by decide +kernel)
  exact ⟨hguard, c, hc, cache_in_order 4 3 twoWaiters hguard hc⟩

def cacheSize : ℕ := 64

/-- With as many neighbours as the cache has entries, looking up another one reads the
`WaitingCount` of no entry. -/
theorem full_cache_null :
    ((run (step 4 cacheSize) empty ((List.range cacheSize).map fun i => Op.set i (i + 1))).map
      fun c => match exec 4 cacheSize c (.resolve cacheSize) with
        | .error h => some h
        | .ok _ => none) = some (some .null) := by
  decide +kernel

end HwAddrCache
