import Mathlib.Data.Fintype.List
import Acess2.ThreadsModel

/-! What the queue operations of `threads.c` do to the lists of the kernel.
`Placed k q` says that the lists of `k` hold the threads `q` and that the statuses, the
run queues and `giNumActiveThreads` fit together. Every operation is specified by how it
changes `q`, under the conditions its callers have to meet. -/
namespace ThreadsQueues

open Function IntrusiveLists List Option ThreadsModel

variable {T O : Type}

def IsWait : ListName O → Prop
  | .activeThreads _ => False
  | .sleepingThreads => False
  | _ => True

theorem IsWait.ne_active {l : ListName O} (h : IsWait l) (p : Priority) : l ≠ .activeThreads p := by
  rintro rfl
  exact h

theorem walk_short [Fintype T] {xs : List T} (h : xs.Nodup) : xs.length < walkFuel T :=
  Nat.lt_succ_of_le h.length_le_card

section Lists

variable {k k' : Kernel T O} {q : ListName O → List T} {l : ListName O} {t u : T}

theorem tail_mem (h : Holds k.next k.lists q) {hd last : T} (hhead : (k.lists l).head = some hd)
    (htail : (k.lists l).tail = some last) : last ∈ q l := by
  obtain ⟨r, hr⟩ := h.head_cons hhead
  exact mem_of_getLast? ((h.tail l (by simp [hr])).symm.trans htail)

def queueing (k : Kernel T O) :=
  (k.next, k.lists, k.status, k.priority, k.cur, k.numActive)

theorem queueing_eq (hsame : queueing k' = queueing k) :
    k'.next = k.next ∧ k'.lists = k.lists ∧ k'.status = k.status ∧ k'.priority = k.priority ∧
      k'.cur = k.cur ∧ k'.numActive = k.numActive := by
  simpa only [queueing, Prod.mk.injEq] using hsame

variable [DecidableEq T] [DecidableEq O] {noTaskSwitch : Bool}

theorem threadsIntAddToList_spec (h : Holds k.next k.lists q) (hoff : ∀ l, t ∉ q l) :
    ∃ n e, threadsIntAddToList k l t = some { k with next := n, lists := update k.lists l e } ∧
      Holds n (update k.lists l e) (update q l (q l ++ [t])) := by
  have hhead := h.head_eq l
  rcases eq_nil_or_concat (q l) with hq | ⟨xs, last, hq⟩
  · -- an empty list: the thread becomes head and tail
    rw [hq] at hhead
    refine ⟨update k.next t none, ⟨some t, some t⟩, ?_, ?_⟩
    · simp [threadsIntAddToList, hhead, Kernel.setList, Kernel.setNext]
    · exact h.append hoff (by simp) (by simp [hq]) (fun y hy _ => by simp [hy]) (by simp [hq]) rfl
  -- otherwise it is linked behind the tail
  have htail := h.tail l (by simp [hq])
  have hlast : last ∈ q l := by simp [hq]
  have hne : last ≠ t := fun hlt => hoff l (hlt ▸ hlast)
  obtain ⟨hd, hhd⟩ : ∃ hd, (q l).head? = some hd := by
    rw [hq]; cases xs <;> simp
  rw [hhd] at hhead
  refine ⟨update (update k.next last (some t)) t none, ⟨some hd, some t⟩, ?_, ?_⟩
  · rw [hq] at htail
    simp [threadsIntAddToList, hhead, htail, Kernel.setList, Kernel.setNext]
  · refine h.append hoff (by simp) ?_ ?_ (by simp [hhd]) rfl
    · intro u hu
      obtain rfl : last = u := by simpa [hq] using hu
      simp [hne]
    · intro y hy hyl
      have : y ≠ last := fun hyl' => hyl (by simp [hq, hyl'])
      simp [hy, this]

theorem threadsIntAddToList_next (h : Holds k.next k.lists q)
    (heq : threadsIntAddToList k l t = some k') (hu : u ∉ q l) (hut : u ≠ t) :
    k'.next u = k.next u := by
  rw [threadsIntAddToList] at heq
  split at heq
  · rename_i hd hhead
    obtain ⟨last, htail, heq⟩ := bind_eq_some_iff.mp heq
    cases heq
    have hul : u ≠ last := fun hul => hu (hul ▸ tail_mem h hhead htail)
    simp [Kernel.setNext, Kernel.setList, hut, hul]
  · cases heq
    simp [Kernel.setNext, Kernel.setList, hut]

theorem threadsIntAddToList_frame (heq : threadsIntAddToList k l t = some k') :
    k'.status = k.status ∧ ∀ l', l' ≠ l → k'.lists l' = k.lists l' := by
  rw [threadsIntAddToList] at heq
  split at heq
  · obtain ⟨last, -, heq⟩ := bind_eq_some_iff.mp heq
    cases heq
    exact ⟨rfl, fun l' hl' => update_of_ne hl' _ _⟩
  · cases heq
    exact ⟨rfl, fun l' hl' => update_of_ne hl' _ _⟩

theorem linkPast_spec {xs ys : List T} {tail : Option T} (h : Holds k.next k.lists q)
    (hq : q l = xs ++ t :: ys) (htail : xs ++ ys ≠ [] → tail = (xs ++ ys).getLast?) :
    ∃ n hd, linkPast k l t xs.getLast?
        = { k with next := n, lists := update k.lists l ⟨hd, (k.lists l).tail⟩ } ∧
      Holds n (update k.lists l ⟨hd, tail⟩) (update q l (xs ++ ys)) := by
  have hl := h.linked l
  rw [hq] at hl
  have hnext : k.next t = ys.head? := hl.next_eq
  rcases eq_nil_or_concat xs with hxs | ⟨zs, z, hxs⟩
  · subst hxs
    refine ⟨k.next, k.next t, by simp [linkPast, Kernel.setList], ?_⟩
    exact h.unlink hq (by simp) (fun _ _ _ => rfl) (by simpa using hnext) htail
  have hlast : xs.getLast? = some z := by simp [hxs]
  have hhead : (k.lists l).head = (xs ++ ys).head? := by
    rw [hl.head_eq, hxs]
    cases zs <;> simp
  refine ⟨update k.next z (k.next t), (k.lists l).head, ?_, ?_⟩
  · simp [linkPast, hlast, Kernel.setNext]
  · refine h.unlink hq ?_ ?_ hhead htail
    · intro y hy
      obtain rfl : z = y := by simpa [hlast] using hy
      simp
    · intro y _ hy
      have : y ≠ z := fun hyz => hy (by rw [hlast, hyz])
      simp [this]

theorem threadsAddActive_cur (hs : k.status k.cur ≠ .active) :
    threadsAddActive k k.cur = some { k.setStatus k.cur .active with
      numActive := k.numActive + 1 } := by
  simp [threadsAddActive, hs, Kernel.setStatus]

theorem threadsAddActive_other (hs : k.status t ≠ .active) (hcur : t ≠ k.cur) : threadsAddActive k t
      = (threadsIntAddToList (k.setStatus t .active) (.activeThreads (k.priority t)) t).map
          fun k => { k with numActive := k.numActive + 1 } := by
  simp [threadsAddActive, hs, hcur, Kernel.setStatus, map_eq_bind]

/-- Whatever thread `Threads_AddActive` is given, it does not write to the wait queues. -/
theorem threadsAddActive_waits (h : Holds k.next k.lists q)
    (heq : threadsAddActive k t = some k') (hl : IsWait l) :
    k'.lists l = k.lists l ∧ (∀ u ∈ q l, u ≠ t → k'.next u = k.next u) ∧ k'.status t = .active := by
  have hs : k.status t ≠ .active := fun hs => by simp [threadsAddActive, hs] at heq
  by_cases hcur : t = k.cur
  · subst hcur
    rw [threadsAddActive_cur hs] at heq
    cases heq
    exact ⟨rfl, fun _ _ _ => rfl, by simp [Kernel.setStatus]⟩
  rw [threadsAddActive_other hs hcur] at heq
  obtain ⟨k₁, hadd, rfl⟩ := map_eq_some_iff.mp heq
  obtain ⟨hstatus, hlists⟩ := threadsIntAddToList_frame hadd
  refine ⟨hlists l (hl.ne_active _), fun u hu hut => ?_, ?_⟩
  · have hholds : Holds (k.setStatus t .active).next (k.setStatus t .active).lists q := h
    have hnext := threadsIntAddToList_next hholds hadd
      (fun hmem => hl.ne_active _ (h.apart hu hmem)) hut
    exact hnext
  · exact (congrFun hstatus t).trans (update_self ..)

theorem threadsAddActive_next (h : Holds k.next k.lists q) (heq : threadsAddActive k t = some k')
    (hu : ∀ l, u ∉ q l) (hut : u ≠ t) : k'.next u = k.next u := by
  have hs : k.status t ≠ .active := fun hs => by simp [threadsAddActive, hs] at heq
  by_cases hcur : t = k.cur
  · subst hcur
    rw [threadsAddActive_cur hs] at heq
    cases heq
    rfl
  · rw [threadsAddActive_other hs hcur] at heq
    obtain ⟨k₁, hadd, rfl⟩ := map_eq_some_iff.mp heq
    have hholds : Holds (k.setStatus t .active).next (k.setStatus t .active).lists q := h
    exact (threadsIntAddToList_next hholds hadd (hu _) hut :)

/-- The scheduler takes the head of the first run queue that is not empty, and panics when
that thread is not active. -/
theorem getRunnableFrom_cases (k : Kernel T O) (ps : List Priority) :
    (getRunnableFrom k ps = some (none, k) ∧ ∀ p ∈ ps, (k.lists (.activeThreads p)).head = none) ∨
      ∃ p t, (k.lists (.activeThreads p)).head = some t ∧
        getRunnableFrom k ps = if k.status t ≠ .active then none else
          some (some t, (k.setList (.activeThreads p) ⟨k.next t,
            if k.next t = none then none
            else (k.lists (.activeThreads p)).tail⟩).setNext t none) := by
  induction ps with
  | nil => exact .inl ⟨rfl, by simp⟩
  | cons p ps ih =>
    cases hp : (k.lists (.activeThreads p)).head with
    | none =>
      rcases ih with ⟨heq, hnone⟩ | ⟨p', t, hhead, heq⟩
      · exact .inl ⟨by rw [getRunnableFrom, hp]; exact heq, by simpa [hp] using hnone⟩
      · exact .inr ⟨p', t, hhead, by rw [getRunnableFrom, hp]; exact heq⟩
    | some t => exact .inr ⟨p, t, hp, by simp only [getRunnableFrom, hp]⟩

theorem procReschedule_idle (h : noTaskSwitch = true ∨ k.numActive = 0) :
    procReschedule k noTaskSwitch = some k := by
  cases noTaskSwitch with
  | true => simp [procReschedule, threadsGetNextToRun]
  | false => simp [procReschedule, threadsGetNextToRun, h.resolve_left (by simp)]

theorem releaseLast_head {k₁ : Kernel T O} (h : releaseLast k t = some k₁) :
    k₁ = k ∨ (k₁.lists (.activeThreads (k.priority t))).head ≠ none := by
  rw [releaseLast] at h
  split at h
  · refine .inr ?_
    rw [threadsIntAddToList] at h
    split at h
    · obtain ⟨last, -, h⟩ := bind_eq_some_iff.mp h
      cases h
      simp [Kernel.setNext, Kernel.setList]
    · cases h
      simp [Kernel.setNext, Kernel.setList]
  · cases h
    exact .inl rfl

variable [Fintype T]

theorem threadsIntDelFromQueue_spec (h : Holds k.next k.lists q) (ht : t ∈ q l) :
    ∃ n e, threadsIntDelFromQueue k l t
        = some (true, { k with next := n, lists := update k.lists l e }) ∧
      Holds n (update k.lists l e) (update q l ((q l).erase t)) ∧
      ((k.lists l).tail = (q l).getLast? → e.tail = ((q l).erase t).getLast?) := by
  obtain ⟨xs, ys, hq⟩ := append_of_mem ht
  have hl := h.linked l
  have hn := h.nodup l
  rw [hq] at hl hn
  have htxs : t ∉ xs := fun hx =>
    (nodup_cons.mp (nodup_middle.mp hn)).1 (mem_append_left ys hx)
  have herase : (q l).erase t = xs ++ ys := by
    rw [hq, erase_append_right _ htxs, erase_cons_head]
  have hseek : seek k.next t (walkFuel T) none (k.lists l).head = some (some xs.getLast?) := by
    rw [seek_found hl htxs (walk_short ((sublist_append_left xs _).nodup hn)), or_none]
  have hnext : k.next t = ys.head? := hl.next_eq
  -- the tail pointer that the function leaves behind
  have htail : (k.lists l).tail = (q l).getLast? →
      (if k.next t = none then xs.getLast? else (k.lists l).tail) = (xs ++ ys).getLast? := by
    intro hstrict
    cases ys with
    | nil => simp [hnext]
    | cons y ys => simp [hnext, hstrict, hq]
  obtain ⟨n, hd, hlink, hholds⟩ := linkPast_spec h hq fun _ => htail (h.tail l (by simp [hq]))
  refine ⟨n, ⟨hd, if k.next t = none then xs.getLast? else (k.lists l).tail⟩, ?_,
    herase ▸ hholds, fun hstrict => herase ▸ htail hstrict⟩
  simp only [threadsIntDelFromQueue, hseek, bind_eq_bind, bind_some, hlink]
  split <;> simp [Kernel.setList]

theorem threadsIntDelFromQueue_absent (h : Holds k.next k.lists q) (ht : t ∉ q l) :
    threadsIntDelFromQueue k l t = some (false, k) := by
  simp [threadsIntDelFromQueue, seek_absent (h.linked l) ht (walk_short (h.nodup l))]

end Lists

variable [Fintype T]

def activeCount (status : T → ThreadStatus) : ℕ :=
  (Finset.univ.filter fun t => status t = .active).card

/-- The lists of `k` hold the threads `q`, and they are the right ones. -/
structure Placed (k : Kernel T O) (q : ListName O → List T) : Prop where
  holds : Holds k.next k.lists q
  kind : ∀ {l t}, t ∈ q l → k.status t = l.status
  runs : ∀ {t}, k.status t = .active → t ≠ k.cur → t ∈ q (.activeThreads (k.priority t))
  queued : ∀ {p t}, t ∈ q (.activeThreads p) → k.priority t = p ∧ t ≠ k.cur
  waitTail : ∀ {l}, IsWait l → (k.lists l).tail = (q l).getLast?
  count : k.numActive = activeCount k.status

section Counting

variable [DecidableEq T] {f : T → ThreadStatus} {t : T} {st : ThreadStatus}

theorem activeCount_wake (h : f t ≠ .active) :
    activeCount (update f t .active) = activeCount f + 1 := by
  have hset : (Finset.univ.filter fun u => update f t .active u = .active)
      = insert t (Finset.univ.filter fun u => f u = .active) := by
    ext u
    by_cases hu : u = t <;> simp [hu]
  rw [activeCount, hset, Finset.card_insert_of_notMem (by simpa using h), activeCount]

theorem activeCount_leave (h : f t = .active) (hst : st ≠ .active) :
    activeCount (update f t st) + 1 = activeCount f := by
  have hset : (Finset.univ.filter fun u => update f t st u = .active)
      = (Finset.univ.filter fun u => f u = .active).erase t := by
    ext u
    by_cases hu : u = t <;> simp [hu, hst]
  rw [activeCount, hset, Finset.card_erase_add_one (by simpa using h), activeCount]

theorem activeCount_same (h : f t ≠ .active) (hst : st ≠ .active) :
    activeCount (update f t st) = activeCount f := by
  have hset : (Finset.univ.filter fun u => update f t st u = .active)
      = Finset.univ.filter fun u => f u = .active := by
    ext u
    by_cases hu : u = t
    · subst hu; simp [hst, h]
    · simp [hu]
  rw [activeCount, hset, activeCount]

end Counting

variable {k : Kernel T O} {q : ListName O → List T} {l : ListName O} {t : T} {k' : Kernel T O}
  {e : ThreadList T} {n : T → Option T} {ys : List T} {c : ℤ} {st : ThreadStatus}

section

variable (h : Placed k q)
include h

theorem Placed.frame (hsame : queueing k' = queueing k) : Placed k' q := by
  obtain ⟨hnext, hlists, hstatus, hpriority, hcur, hnum⟩ := queueing_eq hsame
  constructor
  · rw [hnext, hlists]; exact h.holds
  · rw [hstatus]; exact h.kind
  · rw [hstatus, hpriority, hcur]; exact h.runs
  · rw [hpriority, hcur]; exact h.queued
  · rw [hlists]; exact h.waitTail
  · rw [hnum, h.count, hstatus]

theorem Placed.cur_off (hcur : k.status k.cur = .active) : k.cur ∉ q l := by
  intro hmem
  have hkind := h.kind hmem
  rw [hcur] at hkind
  cases l with
  | activeThreads p => exact (h.queued hmem).2 rfl
  | _ => cases hkind

theorem Placed.off_of_status (hst : ∀ l : ListName O, l.status ≠ k.status t) : t ∉ q l :=
  fun hmem => hst l (h.kind hmem).symm

theorem Placed.shrink [DecidableEq O] (hl : ∀ p, l ≠ .activeThreads p)
    (hholds : Holds n (update k.lists l e) (update q l ys))
    (hys : ∀ t ∈ ys, t ∈ q l) (htail : IsWait l → e.tail = ys.getLast?) :
    Placed { k with next := n, lists := update k.lists l e } (update q l ys) := by
  have hsub : ∀ {l' u}, u ∈ update q l ys l' → u ∈ q l' := by
    intro l' u hu
    by_cases hl' : l' = l
    · subst hl'; exact hys u (by simpa using hu)
    · simpa [hl'] using hu
  constructor
  · exact hholds
  · exact fun hu => h.kind (hsub hu)
  · intro u hu hcur
    rw [update_of_ne (Ne.symm (hl _))]
    exact h.runs hu hcur
  · exact fun hu => h.queued (hsub hu)
  · intro l' hl'
    by_cases hll : l' = l
    · subst hll; simpa using htail hl'
    · simpa [hll] using h.waitTail hl'
  · exact h.count

theorem Placed.tail_popped (hl : IsWait l) (hq : q l = t :: ys) :
    (if k.next t = none then none else (k.lists l).tail) = ys.getLast? := by
  have hlinked := h.holds.linked l
  rw [hq] at hlinked
  rw [h.waitTail hl, hq, hlinked.2.head_eq]
  cases ys <;> simp

theorem Placed.pop_wait [DecidableEq O]
    (hl : IsWait l) (hq : q l = t :: ys) (hhead : e.head = k.next t)
    (htail : e.tail = ys.getLast?) :
    Placed (k.setList l e) (update q l ys) ∧ ∀ l', t ∉ update q l ys l' := by
  have hlinked := h.holds.linked l
  have hnodup := h.holds.nodup l
  rw [hq] at hlinked hnodup
  have hhead' : e.head = ys.head? := by rw [hhead, hlinked.2.head_eq]
  have hholds := h.holds.pop hq (fun _ _ => rfl) hhead' fun _ => htail
  refine ⟨h.shrink hl.ne_active hholds (fun u hu => by simp [hq, hu]) fun _ => htail, ?_⟩
  intro l' hmem
  by_cases hll : l' = l
  · rw [hll, update_self] at hmem
    exact (nodup_cons.mp hnodup).1 hmem
  · rw [update_of_ne hll] at hmem
    exact hll (h.holds.apart hmem (by simp [hq]))

end

variable [DecidableEq T]

theorem Placed.restate (h : Placed k q) (hoff : ∀ l, t ∉ q l) (hn : ∀ u, u ≠ t → n u = k.next u)
    (hst : st = .active → t = k.cur) (hcount : c = activeCount (update k.status t st)) :
    Placed { k with next := n, numActive := c, status := update k.status t st } q := by
  have hne : ∀ {l u}, u ∈ q l → u ≠ t := fun {l u} hu hut => hoff l (hut ▸ hu)
  constructor
  · exact h.holds.frame fun l u hu => hn u (hne hu)
  · intro l u hu
    simpa [hne hu] using h.kind hu
  · intro u hu hucur
    by_cases hut : u = t
    · subst hut
      exact absurd (hst (by simpa using hu)) hucur
    · exact h.runs (by simpa [hut] using hu) hucur
  · exact h.queued
  · exact h.waitTail
  · exact hcount

variable [DecidableEq O]

theorem Placed.join (h : Placed k q) (hoff : ∀ l, t ∉ q l)
    (hholds : Holds n (update k.lists l e) (update q l (q l ++ [t])))
    (hrun : ∀ p, l = .activeThreads p → k.priority t = p ∧ t ≠ k.cur)
    (htail : IsWait l → e.tail = some t) (hcount : c = activeCount (update k.status t l.status)) :
    Placed { k with next := n, lists := update k.lists l e, numActive := c
                    status := update k.status t l.status }
      (update q l (q l ++ [t])) := by
  constructor
  · exact hholds
  · intro l' u hu
    rcases mem_update_concat.mp hu with hu | ⟨rfl, rfl⟩
    · have hut : u ≠ t := fun hut => hoff l' (hut ▸ hu)
      simpa [hut] using h.kind hu
    · simp
  · intro u hu hucur
    by_cases hut : u = t
    · subst hut
      simp only [update_self] at hu
      cases l with
      | activeThreads p => rw [(hrun p rfl).1]; simp
      | _ => cases hu
    · exact mem_update_concat.mpr (.inl (h.runs (by simpa [hut] using hu) hucur))
  · intro p u hu
    rcases mem_update_concat.mp hu with hu | ⟨hl, rfl⟩
    · exact h.queued hu
    · exact hrun p hl.symm
  · intro l' hl'
    by_cases hll : l' = l
    · subst hll; simpa using htail hl'
    · simpa [hll] using h.waitTail hl'
  · exact hcount

theorem Placed.retire (h : Placed k q) (ht : t ∈ q l)
    (hholds : Holds n (update k.lists l e) (update q l ((q l).erase t)))
    (hst : st ≠ .active) (htail : IsWait l → e.tail = ((q l).erase t).getLast?)
    (hcount : c = activeCount (update k.status t st)) :
    Placed { k with next := n, lists := update k.lists l e, numActive := c
                    status := update k.status t st }
      (update q l ((q l).erase t)) := by
  have hmem {l' u} := h.holds.mem_update_erase (j := l') (y := u) ht
  constructor
  · exact hholds
  · intro l' u hu
    obtain ⟨hu, hut⟩ := hmem.mp hu
    simpa [hut] using h.kind hu
  · intro u hu hucur
    have hut : u ≠ t := by
      rintro rfl
      exact hst (by simpa using hu)
    exact hmem.mpr ⟨h.runs (by simpa [hut] using hu) hucur, hut⟩
  · exact fun hu => h.queued (hmem.mp hu).1
  · intro l' hl'
    by_cases hll : l' = l
    · subst hll; simpa using htail hl'
    · simpa [hll] using h.waitTail hl'
  · exact hcount

theorem threadsAddActive_spec (h : Placed k q) (hs : k.status t ≠ .active) (hoff : ∀ l, t ∉ q l) :
    ∃ n L q', let k' := { k with
        next := n, lists := L, numActive := k.numActive + 1, status := update k.status t .active }
      threadsAddActive k t = some k' ∧ Placed k' q' ∧
      ∀ l, (∀ p, l ≠ .activeThreads p) → L l = k.lists l ∧ q' l = q l := by
  have hcount : k.numActive + 1 = activeCount (update k.status t .active) := by
    rw [activeCount_wake hs, h.count]
    rfl
  by_cases hcur : t = k.cur
  · refine ⟨k.next, k.lists, q, ?_, h.restate hoff (fun _ _ => rfl) (fun _ => hcur) hcount,
      fun _ _ => ⟨rfl, rfl⟩⟩
    subst hcur
    rw [threadsAddActive_cur hs]
    rfl
  have hplaced : Holds (k.setStatus t .active).next (k.setStatus t .active).lists q := h.holds
  obtain ⟨n, e, hadd, hholds⟩ := threadsIntAddToList_spec
    (l := .activeThreads (k.priority t)) hplaced hoff
  refine ⟨n, _, _, ?_, h.join hoff hholds ?_ (fun hw => hw.elim) hcount, ?_⟩
  · rw [threadsAddActive_other hs hcur, hadd]
    rfl
  · intro p hp
    cases hp
    exact ⟨rfl, hcur⟩
  · intro l hl
    simp [hl]

omit [DecidableEq O] in
theorem activeCount_sleep (h : Placed k q) (hcur : k.status k.cur = .active) (hst : st ≠ .active) :
    k.numActive - 1 = activeCount (update k.status k.cur st) := by
  rw [h.count, ← activeCount_leave hcur hst]
  simp

theorem threadsIntSleep_queue (ptr : Option O) (num : ℤ) (h : Placed k q) (hl : IsWait l)
    (hcur : k.status k.cur = .active) :
    ∃ n e, threadsIntSleep k l.status ptr num (.queue l)
        = { k with next := n, lists := update k.lists l e, numActive := k.numActive - 1
                   status := update k.status k.cur l.status
                   retStatus := update k.retStatus k.cur num
                   waitPointer := update k.waitPointer k.cur ptr } ∧
      Placed { k with next := n, lists := update k.lists l e
                      numActive := k.numActive - 1
                      status := update k.status k.cur l.status }
        (update q l (q l ++ [k.cur])) := by
  have hoff : ∀ l, k.cur ∉ q l := fun l => h.cur_off hcur
  have hst : l.status ≠ .active := by
    cases l <;> first | exact hl.elim | simp [ListName.status]
  have hcount := activeCount_sleep h hcur hst
  have htail := h.waitTail hl
  have hhead := h.holds.head_eq l
  have hjoin : ∀ n e, Holds n (update k.lists l e) (update q l (q l ++ [k.cur])) →
      e.tail = some k.cur → _ := fun n e hh ht =>
    h.join hoff hh (fun p hp => absurd hp (hl.ne_active p)) (fun _ => ht) hcount
  rcases eq_nil_or_concat (q l) with hq | ⟨xs, last, hq⟩
  · rw [hq] at htail
    refine ⟨update k.next k.cur none, ⟨some k.cur, some k.cur⟩, ?_, hjoin _ _ ?_ rfl⟩
    · simp [threadsIntSleep, htail, Kernel.setList, Kernel.setNext, Kernel.setStatus,
        Kernel.setRetStatus, threadsRemActive]
    · exact h.holds.append hoff (by simp) (by simp [hq]) (fun y hy _ => by simp [hy])
        (by simp [hq]) rfl
  rw [hq] at htail
  have hlast : last ∈ q l := by simp [hq]
  have hne : k.cur ≠ last := fun hlt => hoff l (hlt ▸ hlast)
  refine ⟨update (update k.next k.cur none) last (some k.cur),
    ⟨(k.lists l).head, some k.cur⟩, ?_, hjoin _ _ ?_ rfl⟩
  · simp [threadsIntSleep, htail, Kernel.setList, Kernel.setNext, Kernel.setStatus,
      Kernel.setRetStatus, threadsRemActive]
  · refine h.holds.append hoff (by simp [hne]) ?_ ?_ ?_ rfl
    · intro u hu
      obtain rfl : last = u := by simpa [hq] using hu
      simp
    · intro y hy hyl
      have hyl' : y ≠ last := fun hyl' => hyl (by simp [hq, hyl'])
      simp [hy, hyl']
    · rw [hhead, hq]
      cases xs <;> simp

theorem threadsIntSleep_off (ptr : Option O) (num : ℤ) {list : SleepList O}
    (h : Placed k q) (hcur : k.status k.cur = .active) (hst : st ≠ .active)
    (hlist : ∀ l, list ≠ .queue l) : Placed (threadsIntSleep k st ptr num list) q := by
  have hoff : ∀ l, k.cur ∉ q l := fun l => h.cur_off hcur
  have hcount := activeCount_sleep h hcur hst
  have hn : ∀ u, u ≠ k.cur → (threadsIntSleep k st ptr num list).next u = k.next u := by
    intro u hu
    cases list with
    | queue l => exact absurd rfl (hlist l)
    | self | nowhere =>
      simp [threadsIntSleep, Kernel.setNext, Kernel.setStatus, Kernel.setRetStatus,
        threadsRemActive, hu]
  have hplaced := h.restate hoff hn (fun hact => absurd hact hst) hcount
  cases list with
  | queue l => exact absurd rfl (hlist l)
  | self | nowhere => exact hplaced.frame rfl

theorem threadsSleep_spec (h : Placed k q) (hcur : k.status k.cur = .active)
    (hmsg : k.messages k.cur = false) :
    ∃ n e, let k' := { k with
        next := n, lists := update k.lists .sleepingThreads e, numActive := k.numActive - 1
        status := update k.status k.cur .sleeping }
      threadsSleep k = some k' ∧
        Placed k' (update q .sleepingThreads (q .sleepingThreads ++ [k.cur])) := by
  have hoff : ∀ l, k.cur ∉ q l := fun l => h.cur_off hcur
  have hholds : Holds ((threadsRemActive k).setStatus k.cur .sleeping).next
    ((threadsRemActive k).setStatus k.cur .sleeping).lists q := h.holds
  obtain ⟨n, e, hadd, hholds⟩ := threadsIntAddToList_spec (l := .sleepingThreads) hholds hoff
  refine ⟨n, e, ?_, ?_⟩
  · simp only [threadsSleep, hmsg, Bool.false_eq_true, if_false]
    exact hadd
  · exact h.join hoff hholds (fun p hp => by cases hp) (fun hw => hw.elim)
      (activeCount_sleep h hcur (by simp [ListName.status]))

theorem releaseLast_spec (h : Placed k q) :
    ∃ n L q', releaseLast k k.cur = some { k with next := n, lists := L } ∧ Holds n L q' ∧
      (∀ {l u}, u ∈ q' l → k.status u = l.status) ∧
      (∀ {u}, k.status u = .active → u ∈ q' (.activeThreads (k.priority u))) ∧
      (∀ {p u}, u ∈ q' (.activeThreads p) → k.priority u = p) ∧
      ∀ l, (∀ p, l ≠ .activeThreads p) → L l = k.lists l ∧ q' l = q l := by
  by_cases hcur : k.status k.cur = .active
  · obtain ⟨n, e, hadd, hholds⟩ := threadsIntAddToList_spec
      (l := .activeThreads (k.priority k.cur)) h.holds fun l => h.cur_off hcur
    refine ⟨n, _, _, by simpa [releaseLast, hcur] using hadd, hholds, ?_, ?_, ?_, ?_⟩
    · intro l u hu
      rcases mem_update_concat.mp hu with hu | ⟨rfl, rfl⟩
      · exact h.kind hu
      · exact hcur
    · intro u hu
      by_cases hucur : u = k.cur
      · exact mem_update_concat.mpr (.inr ⟨by rw [hucur], hucur⟩)
      · exact mem_update_concat.mpr (.inl (h.runs hu hucur))
    · intro p u hu
      rcases mem_update_concat.mp hu with hu | ⟨hp, rfl⟩
      · exact (h.queued hu).1
      · cases hp; rfl
    · intro l hl
      simp [hl]
  · refine ⟨k.next, k.lists, q, by simp [releaseLast, hcur], h.holds, h.kind, ?_, ?_,
      fun _ _ => ⟨rfl, rfl⟩⟩
    · intro u hu
      exact h.runs hu fun hucur => hcur (hucur ▸ hu)
    · exact fun hu => (h.queued hu).1

/-- Any active thread can be switched to, and only the run queues and the current thread
change. -/
theorem dispatch_spec (h : Placed k q) (ht : k.status t = .active) :
    ∃ n L q', let k' := { k with next := n, lists := L, cur := t }
      dispatch k (k.priority t) t = some k' ∧ Placed k' q' ∧
      ∀ l, (∀ p, l ≠ .activeThreads p) → L l = k.lists l ∧ q' l = q l := by
  obtain ⟨n, L, q', hrel, hholds, hkind, hruns, hprio, hother⟩ := releaseLast_spec h
  have htq := hruns ht
  have hholds' : Holds ({ k with next := n, lists := L } : Kernel T O).next
      ({ k with next := n, lists := L } : Kernel T O).lists q' := hholds
  obtain ⟨n', e, hdel, hdelHolds, -⟩ := threadsIntDelFromQueue_spec hholds' htq
  have hmem {l u} := hholds.mem_update_erase (j := l) (y := u) htq
  refine ⟨update n' t none, update L (.activeThreads (k.priority t)) e,
    update q' (.activeThreads (k.priority t))
      ((q' (.activeThreads (k.priority t))).erase t), ?_, ?_, ?_⟩
  · simp [dispatch, hrel, ht, hdel, Kernel.setNext]
  · constructor
    · refine hdelHolds.frame fun l u hu => ?_
      have hut := (hmem.mp hu).2
      simp [hut]
    · exact fun hu => hkind (hmem.mp hu).1
    · intro u hu hut
      exact hmem.mpr ⟨hruns hu, hut⟩
    · intro p u hu
      exact ⟨hprio (hmem.mp hu).1, (hmem.mp hu).2⟩
    · intro l hl
      have hne : l ≠ .activeThreads (k.priority t) := hl.ne_active _
      obtain ⟨hL, hq⟩ := hother l hl.ne_active
      simp only [update_of_ne hne]
      rw [hL, hq]
      exact h.waitTail hl
    · exact h.count
  · intro l hl
    simpa [hl] using hother l hl

theorem threadsIntDelFromQueue_head (hhead : (k.lists l).head = some t) :
    threadsIntDelFromQueue k l t = some (true, k.setList l ⟨k.next t,
      if k.next t = none then none else (k.lists l).tail⟩) := by
  have hseek : seek k.next t (walkFuel T) none (some t) = some (some none) := by
    simp [walkFuel, seek]
  simp only [threadsIntDelFromQueue, hhead, hseek, bind_eq_bind, bind_some, linkPast]
  split <;> simp_all [Kernel.setList]

variable {noTaskSwitch : Bool}

theorem procReschedule_cases (h : procReschedule k noTaskSwitch = some k') :
    k' = k ∨ ∃ p t, dispatch k p t = some k' := by
  by_cases hidle : noTaskSwitch = true ∨ k.numActive = 0
  · rw [procReschedule_idle hidle] at h
    exact .inl (some.inj h).symm
  obtain ⟨hswitch, hnum⟩ := not_or.mp hidle
  cases hrel : releaseLast k k.cur with
  | none => simp [procReschedule, threadsGetNextToRun, hswitch, hnum, hrel] at h
  | some k₁ =>
    simp only [procReschedule, threadsGetNextToRun, hswitch, hnum, hrel, if_false,
      bind_eq_bind, bind_some, threadsIntGetRunnable] at h
    rcases getRunnableFrom_cases k₁ (finRange (minPriority + 1)) with
      ⟨hget, hnone⟩ | ⟨p, t, hhead, hget⟩
    · rw [hget] at h
      cases h
      rcases releaseLast_head hrel with rfl | hhead
      · exact .inl rfl
      · exact absurd (hnone _ (mem_finRange _)) hhead
    refine .inr ⟨p, t, ?_⟩
    rw [hget] at h
    by_cases hact : k₁.status t = .active
    · simp only [hact, ne_eq, not_true_eq_false, if_false] at h
      cases h
      simp [dispatch, hrel, hact, threadsIntDelFromQueue_head hhead]
    · simp [hact] at h

theorem procReschedule_spec (h : Placed k q) (noTaskSwitch : Bool) :
    ∃ n L c q', let k' := { k with next := n, lists := L, cur := c }
      procReschedule k noTaskSwitch = some k' ∧ Placed k' q' ∧
      ∀ l, (∀ p, l ≠ .activeThreads p) → L l = k.lists l ∧ q' l = q l := by
  by_cases hidle : noTaskSwitch = true ∨ k.numActive = 0
  · exact ⟨k.next, k.lists, k.cur, q, procReschedule_idle hidle, h, fun _ _ => ⟨rfl, rfl⟩⟩
  obtain ⟨hswitch, hnum⟩ := not_or.mp hidle
  obtain ⟨n, L, q', hrel, hholds, hkind, hruns, hprio, -⟩ := releaseLast_spec h
  have hact : ∀ p t, (L (.activeThreads p)).head = some t → t ∈ q' (.activeThreads p) := by
    intro p t ht
    rw [hholds.head_eq] at ht
    exact mem_of_head? ht
  rcases getRunnableFrom_cases { k with next := n, lists := L } (finRange (minPriority + 1))
    with ⟨-, hnone⟩ | ⟨p, t, hhead, hget⟩
  · -- some thread is active, so some run queue is not empty
    have hpos : 0 < activeCount k.status := by
      have hcount := h.count
      omega
    obtain ⟨u, hu⟩ := Finset.card_pos.mp hpos
    have hmem := hruns (Finset.mem_filter.mp hu).2
    have hempty := hnone (k.priority u) (mem_finRange _)
    rw [show (L (.activeThreads (k.priority u))).head = _ from hholds.head_eq _,
      head?_eq_none_iff] at hempty
    rw [hempty] at hmem
    simp at hmem
  · have hmem := hact p t hhead
    have hst : k.status t = .active := hkind hmem
    obtain ⟨n', L', q'', hdisp, hplaced, hother⟩ := dispatch_spec h hst
    have hdel := threadsIntDelFromQueue_head (k := { k with next := n, lists := L }) hhead
    refine ⟨n', L', t, q'', ?_, hplaced, hother⟩
    rw [← hdisp, hprio hmem]
    simp only [procReschedule, threadsGetNextToRun, hswitch, hnum, hrel, threadsIntGetRunnable,
      dispatch, bind_eq_bind, bind_some, hget, hdel, hst]
    simp [Kernel.setNext, Kernel.setList]

variable {u : T}

theorem threadsIntDelFromQueue_next (h : Holds k.next k.lists q) {found : Bool}
    (heq : threadsIntDelFromQueue k l t = some (found, k')) (hu : u ∉ q l) :
    k'.next u = k.next u := by
  by_cases ht : t ∈ q l
  · obtain ⟨r, hseek, heq⟩ := bind_eq_some_iff.mp heq
    cases r with
    | none =>
      cases heq
      rfl
    | some prev =>
      have hpast : (linkPast k l t prev).next u = k.next u := by
        cases prev with
        | none => rfl
        | some p =>
          have hp : p ∈ q l := (seek_mem (h.linked l) hseek).resolve_left (by simp)
          have hup : u ≠ p := fun hup => hu (hup ▸ hp)
          simp [linkPast, Kernel.setNext, hup]
      dsimp only at heq
      split at heq
      all_goals
        cases heq
        exact hpast
  · rw [threadsIntDelFromQueue_absent h ht] at heq
    cases heq
    rfl

theorem threadsIntSleep_next (h : Placed k q) (st : ThreadStatus) (ptr : Option O) (num : ℤ)
    {list : SleepList O} (hwait : ∀ l, list = .queue l → IsWait l) (hu : ∀ l, u ∉ q l)
    (hcur : u ≠ k.cur) : (threadsIntSleep k st ptr num list).next u = k.next u := by
  cases list with
  | queue l =>
    have htail := h.waitTail (hwait l rfl)
    simp only [threadsIntSleep, threadsRemActive, Kernel.setNext, Kernel.setStatus,
      Kernel.setRetStatus]
    cases hlast : (k.lists l).tail with
    | none => simp [Kernel.setList, hcur]
    | some last =>
      have hul : u ≠ last := fun hul =>
        hu l (mem_of_getLast? (htail.symm.trans (hul ▸ hlast)))
      simp [Kernel.setList, hcur, hul]
  | self | nowhere => simp [threadsIntSleep, threadsRemActive, Kernel.setNext, Kernel.setStatus,
      Kernel.setRetStatus, hcur]

theorem dispatch_next (h : Placed k q) {p : Priority} (heq : dispatch k p t = some k')
    (hu : k.status u ≠ .active) : k'.next u = k.next u := by
  obtain ⟨n, L, q', hrel, hholds, hkind, -⟩ := releaseLast_spec h
  obtain ⟨k₁, hk₁, heq⟩ := bind_eq_some_iff.mp heq
  have hnext : k₁.next u = k.next u := by
    have hrel' := hk₁
    rw [releaseLast] at hrel'
    split at hrel'
    · rename_i hact
      refine threadsIntAddToList_next h.holds hrel' ?_ ?_
      · exact fun hmem => hu (h.kind hmem)
      · rintro rfl
        exact hu hact
    · cases hrel'
      rfl
  cases hk₁.symm.trans hrel
  rw [← hnext]
  obtain ⟨hact, heq⟩ := ite_none_left_eq_some.mp heq
  obtain ⟨⟨found, k₂⟩, hdel, heq⟩ := bind_eq_some_iff.mp heq
  have hoff : u ∉ q' (.activeThreads p) := fun hmem => hu (hkind hmem)
  have hrest := threadsIntDelFromQueue_next (k := { k with next := n, lists := L }) hholds hdel hoff
  cases found with
  | false => cases heq
  | true =>
    cases heq
    have hut : u ≠ t := fun hut => hu (hut ▸ not_not.mp hact)
    rw [← hrest]
    simp [Kernel.setNext, hut]

theorem procReschedule_next (h : Placed k q)
    (heq : procReschedule k noTaskSwitch = some k') (hu : k.status u ≠ .active) :
    k'.next u = k.next u := by
  rcases procReschedule_cases heq with rfl | ⟨p, t, hdisp⟩
  · rfl
  · exact dispatch_next h hdisp hu

variable {cur : T} {xs : List T}

def ready (deadChildLock : T → O) (cur : T) (xs : List T) : Kernel T O where
  status t := if t = cur ∨ t ∈ xs then .active else .preinit
  priority _ := 0
  next := linksOf xs
  retStatus _ := 0
  waitPointer _ := none
  eventState _ := 0
  messages _ := false
  parent t := if t = cur then none else some cur
  lastDeadChild _ := none
  deadChildLock := deadChildLock
  lists l := if l = .activeThreads 0 then ⟨xs.head?, xs.getLast?⟩ else ⟨none, none⟩
  numActive := xs.length + 1
  cur := cur
  threadZero := cur
  mutexOwner _ := none
  rwlockOwner _ := none
  rwlockLevel _ := 0
  semValue _ := 0
  semMax _ := 0

def readyLists (xs : List T) (l : ListName O) : List T := if l = .activeThreads 0 then xs else []

omit [Fintype T] [DecidableEq T] in
theorem mem_readyLists (h : t ∈ readyLists xs l) : l = .activeThreads 0 ∧ t ∈ xs := by
  unfold readyLists at h
  split_ifs at h with hl
  · exact ⟨hl, h⟩
  · simp at h

theorem ready_placed (deadChildLock : T → O) (hcur : cur ∉ xs) (hn : xs.Nodup) :
    Placed (ready deadChildLock cur xs) (readyLists xs) := by
  constructor
  · constructor
    · intro l
      by_cases hl : l = .activeThreads 0
      · simpa [ready, readyLists, hl] using linked_linksOf hn
      · simp [ready, readyLists, hl, Linked]
    · intro l
      by_cases hl : l = .activeThreads 0 <;> simp [readyLists, hl, hn]
    · intro i j t hi hj
      rw [(mem_readyLists hi).1, (mem_readyLists hj).1]
    · intro l hl
      by_cases hl' : l = .activeThreads 0
      · simp [ready, readyLists, hl']
      · simp [readyLists, hl'] at hl
  · intro l t ht
    obtain ⟨rfl, ht⟩ := mem_readyLists ht
    exact if_pos (.inr ht)
  · intro t ht htc
    have htc' : t ≠ cur := htc
    have hmem : t ∈ xs := by
      by_contra hno
      simp [ready, htc', hno] at ht
    simpa [ready, readyLists] using hmem
  · intro p t ht
    obtain ⟨hp, ht⟩ := mem_readyLists ht
    cases hp
    refine ⟨rfl, fun htc => hcur ?_⟩
    rwa [show t = cur from htc] at ht
  · intro l hl
    have hl' : l ≠ .activeThreads 0 := hl.ne_active 0
    simp [ready, readyLists, hl']
  · have hset : (Finset.univ.filter fun t => (ready deadChildLock cur xs).status t = .active)
        = (cur :: xs).toFinset := by
      ext t
      rw [Finset.mem_filter, List.mem_toFinset, mem_cons]
      by_cases ht : t = cur ∨ t ∈ xs
      · exact iff_of_true ⟨Finset.mem_univ t, if_pos ht⟩ ht
      · have hst : (ready deadChildLock cur xs).status t = .preinit := if_neg ht
        exact iff_of_false (by simp [hst]) ht
    rw [activeCount, hset, toFinset_card_of_nodup (nodup_cons.mpr ⟨hcur, hn⟩)]
    simp [ready]

end ThreadsQueues
