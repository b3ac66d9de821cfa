import Acess2.LocksModel
import Acess2.ThreadsQueues

/-! `Threads_SetPriority` and who may run.
The thread is put on the run queue of its new priority whether it was on the old one or not. A
thread that is asleep or has exited gets on a run queue that way, and its `Next` field no longer
links it to those behind it on the list where it waits. -/
namespace ThreadsPriority

open Function IntrusiveLists List LocksModel Option ThreadsModel ThreadsQueues

variable {T O : Type} [DecidableEq T] [DecidableEq O] [Fintype T]
variable {k k' : Kernel T O} {q q' : ListName O → List T} {t : T}

/-- The same threads may run, the lists of the others are as before, and the counts are right. -/
structure SameRunners (t : T) (q : ListName O → List T) (k' : Kernel T O)
    (q' : ListName O → List T) : Prop where
  lists : Holds k'.next k'.lists q'
  runners : ∀ u, (∃ p, u ∈ q' (.activeThreads p)) ↔ ∃ p, u ∈ q (.activeThreads p)
  others : ∀ p u, u ≠ t → (u ∈ q' (.activeThreads p) ↔ u ∈ q (.activeThreads p))
  waits : ∀ l, (∀ p, l ≠ .activeThreads p) → q' l = q l
  count : k'.numActive = activeCount k'.status

omit [DecidableEq T] [DecidableEq O] in
theorem same_of_lists (h : Placed k q) (hnext : k'.next = k.next) (hlists : k'.lists = k.lists)
    (hstatus : k'.status = k.status) (hactive : k'.numActive = k.numActive) :
    SameRunners t q k' q := by
  refine ⟨?_, fun _ => Iff.rfl, fun _ _ _ => Iff.rfl, fun _ _ => rfl, ?_⟩
  · rw [hnext, hlists]
    exact h.holds
  · rw [hactive, hstatus]
    exact h.count

theorem move_same (h : Placed k q) (hact : k.status t = .active) (hcur : t ≠ k.cur) {pri : ℤ}
    (hpri : clampPriority pri ≠ k.priority t) :
    ∃ k' q', threadsSetPriority k (some t) pri = some k' ∧ SameRunners t q k' q' := by
  have hmem := h.runs hact hcur
  obtain ⟨n, e, hdel, hholds, -⟩ := threadsIntDelFromQueue_spec h.holds hmem
  let q₁ := update q (.activeThreads (k.priority t)) ((q (.activeThreads (k.priority t))).erase t)
  have hmem₁ (l : ListName O) (u : T) : u ∈ q₁ l ↔ u ∈ q l ∧ u ≠ t := by
    by_cases hl : l = .activeThreads (k.priority t)
    · subst hl
      change u ∈ update q _ _ _ ↔ _
      rw [update_self, (h.holds.nodup _).mem_erase_iff, and_comm]
    · change u ∈ update q _ _ _ ↔ _
      rw [update_of_ne hl]
      refine ⟨fun hu => ⟨hu, ?_⟩, And.left⟩
      rintro rfl
      exact hl (h.holds.apart hu hmem)
  have hholds₁ : Holds ({ k with next := n
                                 lists := update k.lists (.activeThreads (k.priority t)) e }
      : Kernel T O).next ({ k with next := n
                                   lists := update k.lists (.activeThreads (k.priority t)) e }
      : Kernel T O).lists q₁ := hholds
  obtain ⟨n', e', hadd, hholds'⟩ :=
    threadsIntAddToList_spec (l := .activeThreads (clampPriority pri))
    hholds₁ fun l hl => ((hmem₁ l t).mp hl).2 rfl
  have hset : threadsSetPriority k (some t) pri = some { k with
      next := n'
      lists := update (update k.lists (.activeThreads (k.priority t)) e)
        (.activeThreads (clampPriority pri)) e'
      priority := update k.priority t (clampPriority pri) } := by
    rw [threadsSetPriority]
    dsimp only [getD_some]
    rw [if_neg hpri, if_pos hcur, hdel]
    dsimp only [bind, bind_some]
    rw [hadd]
    rfl
  have hmem₂ (p : Priority) (u : T) : u ∈ update q₁ (.activeThreads (clampPriority pri))
        (q₁ (.activeThreads (clampPriority pri)) ++ [t]) (.activeThreads p) ↔
      (u ∈ q (.activeThreads p) ∧ u ≠ t) ∨ (p = clampPriority pri ∧ u = t) := by
    by_cases hp : p = clampPriority pri
    · subst hp
      rw [update_self, mem_append, mem_singleton, hmem₁]
      simp
    · rw [update_of_ne (by simpa using hp), hmem₁]
      simp [hp]
  refine ⟨_, update q₁ (.activeThreads (clampPriority pri))
    (q₁ (.activeThreads (clampPriority pri)) ++ [t]), hset, ?_⟩
  constructor
  case lists => exact hholds'
  case runners =>
    intro u
    by_cases hu : u = t
    · subst hu
      refine iff_of_true ⟨clampPriority pri, (hmem₂ _ _).mpr (.inr ⟨rfl, rfl⟩)⟩ ⟨_, hmem⟩
    · refine exists_congr fun p => ?_
      rw [hmem₂]
      simp [hu]
  case others =>
    intro p u hu
    rw [hmem₂]
    simp [hu]
  case waits =>
    intro l hl
    rw [update_of_ne (hl _)]
    exact update_of_ne (hl _) _ _
  case count => exact h.count

omit [Fintype T] in
theorem threadsIntAddToList_tail (h : Holds k.next k.lists q) (l : ListName O) (t : T) :
    ∃ k', threadsIntAddToList k l t = some k' ∧ (k'.lists l).tail = some t ∧
      (k'.lists l).head ≠ none := by
  have hhead := h.head_eq l
  cases hq : q l with
  | nil =>
    rw [hq] at hhead
    refine ⟨(k.setList l ⟨some t, some t⟩).setNext t none, ?_, ?_, ?_⟩
    · rw [threadsIntAddToList, hhead]
      rfl
    · simp [Kernel.setList, Kernel.setNext]
    · simp [Kernel.setList, Kernel.setNext]
  | cons x xs =>
    have htail := h.tail l (by simp [hq])
    obtain ⟨last, hlast⟩ : ∃ last, (q l).getLast? = some last :=
      ⟨_, getLast?_eq_some_getLast (by simp [hq])⟩
    rw [hlast] at htail
    rw [hq] at hhead
    refine ⟨((k.setNext last (some t)).setList l ⟨some x, some t⟩).setNext t none, ?_, ?_, ?_⟩
    · rw [threadsIntAddToList, hhead, htail]
      rfl
    · simp [Kernel.setList, Kernel.setNext]
    · simp [Kernel.setList, Kernel.setNext]

theorem misplaced (h : Placed k q) (hact : k.status t ≠ .active) (hcur : t ≠ k.cur) {pri : ℤ}
    (hpri : clampPriority pri ≠ k.priority t) :
    ∃ k', threadsSetPriority k (some t) pri = some k' ∧ ∀ q', ¬ SameRunners t q k' q' := by
  have hoff (p : Priority) : t ∉ q (.activeThreads p) := fun ht => hact (h.kind ht)
  obtain ⟨k₁, hadd, htail, hhead⟩ :=
    threadsIntAddToList_tail h.holds (.activeThreads (clampPriority pri)) t
  refine ⟨{ k₁ with priority := update k₁.priority t (clampPriority pri) }, ?_, ?_⟩
  · rw [threadsSetPriority]
    dsimp only [getD_some]
    rw [if_neg hpri, if_pos hcur, threadsIntDelFromQueue_absent h.holds (hoff _)]
    dsimp only [bind, bind_some]
    rw [hadd]
    rfl
  · intro q' hsame
    have hne : q' (.activeThreads (clampPriority pri)) ≠ [] := by
      intro hnil
      have hempty := hsame.lists.head_eq (.activeThreads (clampPriority pri))
      rw [hnil] at hempty
      exact hhead hempty
    have hlast := hsame.lists.tail _ hne
    have hmem : t ∈ q' (.activeThreads (clampPriority pri)) :=
      mem_of_getLast? (hlast.symm.trans htail)
    obtain ⟨p, hp⟩ := (hsame.runners t).mp ⟨_, hmem⟩
    exact hoff p hp

theorem priority_keeps_runners_iff (h : Placed k q) (thread : Option T) (pri : ℤ) :
    ∃ k', threadsSetPriority k thread pri = some k' ∧
      ((∃ q', SameRunners (thread.getD k.cur) q k' q') ↔
        clampPriority pri = k.priority (thread.getD k.cur) ∨ thread.getD k.cur = k.cur ∨
          k.status (thread.getD k.cur) = .active) := by
  have hthread : threadsSetPriority k thread pri =
      threadsSetPriority k (some (thread.getD k.cur)) pri := rfl
  rw [hthread]
  generalize thread.getD k.cur = t
  by_cases hpri : clampPriority pri = k.priority t
  · refine ⟨k, if_pos hpri, iff_of_true ⟨q, ?_⟩ (.inl hpri)⟩
    exact same_of_lists h rfl rfl rfl rfl
  by_cases hcur : t = k.cur
  · refine ⟨{ k with priority := update k.priority t (clampPriority pri) }, ?_,
      iff_of_true ⟨q, same_of_lists h rfl rfl rfl rfl⟩ (.inr (.inl hcur))⟩
    rw [threadsSetPriority]
    dsimp only [getD_some]
    rw [if_neg hpri, if_neg (not_not_intro hcur)]
  by_cases hact : k.status t = .active
  · obtain ⟨k', q', hset, hsame⟩ := move_same h hact hcur hpri
    exact ⟨k', hset, iff_of_true ⟨q', hsame⟩ (.inr (.inr hact))⟩
  obtain ⟨k', hset, hnone⟩ := misplaced h hact hcur hpri
  refine ⟨k', hset, iff_of_false ?_ ?_⟩
  · rintro ⟨q', hsame⟩
    exact hnone q' hsame
  · rintro (h | h | h)
    · exact hpri h
    · exact hcur h
    · exact hact h

/-- Thread 1 is ready. -/
theorem ready_thread_keeps_runners : ∃ k',
    threadsSetPriority (ready (fun _ => ()) 0 [1] : Kernel (Fin 3) Unit) (some 1) 5 = some k' ∧
      ∃ q', SameRunners 1 (readyLists [1]) k' q' := by
  have hplaced : Placed (ready (fun _ => ()) 0 [1] : Kernel (Fin 3) Unit) (readyLists [1]) :=
    ready_placed _ (by decide) (by decide)
  obtain ⟨k', hset, hiff⟩ := priority_keeps_runners_iff hplaced (some 1) 5
  exact ⟨k', hset, hiff.mpr (.inr (.inr rfl))⟩

def contended : Option (Kernel (Fin 3) Unit) := do
  let k ← dispatch (mutexAcquire (ready (fun _ => ()) 0 [1, 2]) ()) 0 1
  let k ← dispatch (mutexAcquire k ()) 0 2
  dispatch (mutexAcquire k ()) 0 0

/-- Thread 1 gets on a run queue while it waits, and thread 2 behind it is cut off. -/
theorem waiter_made_runnable : contended.map (fun k => ((k.lists (.mutexWaiting ())).head, k.next 1,
      (k.lists (.activeThreads 5)).head)) = some (some 1, some 2, none) ∧
    (contended.bind fun k => threadsSetPriority k (some 1) 5).map (fun k =>
      ((k.lists (.mutexWaiting ())).head, k.next 1, (k.lists (.activeThreads 5)).head,
        k.status 1)) = some (some 1, none, some 1, .mutexSleep) := by
  decide +kernel

end ThreadsPriority
