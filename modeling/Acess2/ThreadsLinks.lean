import Acess2.ThreadsModel

/-! What the queue operations do to the pointers of the kernel when the tail pointers cannot
be trusted. A stale tail makes an append write into some other thread's `Next`; still, every
thread stays pointed at from at most one place, and the running one from none. -/
namespace ThreadsLinks

open Function IntrusiveLists Option ThreadsModel

variable {T O : Type}

/-- The places that point at threads: the heads of the lists and the `Next` fields. -/
def links (k : Kernel T O) : ListName O ⊕ T → Option T :=
  Sum.elim (fun l => (k.lists l).head) k.next

@[simp] theorem links_inl (k : Kernel T O) (l : ListName O) :
    links k (.inl l) = (k.lists l).head := rfl

@[simp] theorem links_inr (k : Kernel T O) (t : T) : links k (.inr t) = k.next t := rfl

variable [DecidableEq T] [DecidableEq O] {k k' : Kernel T O} {t : T}

theorem links_setNext (k : Kernel T O) (t : T) (p : Option T) :
    links (k.setNext t p) = update (links k) (.inr t) p := by
  funext a
  cases a with
  | inl l => simp [Kernel.setNext]
  | inr u => by_cases hu : u = t <;> simp [Kernel.setNext, hu]

theorem links_setList (k : Kernel T O) (l : ListName O) (e : ThreadList T) :
    links (k.setList l e) = update (links k) (.inl l) e.head := by
  funext a
  cases a with
  | inl l' => by_cases hl : l' = l <;> simp [Kernel.setList, hl]
  | inr u => simp [Kernel.setList]

variable {l : ListName O}

theorem links_setList_same {e : ThreadList T} (h : e.head = (k.lists l).head) :
    links (k.setList l e) = links k := by
  rw [links_setList, update_eq_self_iff, h, links_inl]

theorem threadsIntAddToList_links (h : threadsIntAddToList k l t = some k') :
    ∃ a n e, k' = { k with next := n, lists := update k.lists l e } ∧
      links k' = update (update (links k) a (some t)) (.inr t) none ∧
      ∀ l', a = .inl l' → l' = l := by
  rw [threadsIntAddToList] at h
  split at h
  · rename_i hd hhead
    obtain ⟨last, htail, h⟩ := bind_eq_some_iff.mp h
    cases h
    refine ⟨.inr last, _, _, rfl, ?_, by simp⟩
    rw [links_setNext, links_setList_same hhead.symm, links_setNext]
  · cases h
    exact ⟨.inl l, _, _, rfl, by rw [links_setNext, links_setList], by simp⟩

theorem threadsAddActive_links (h : threadsAddActive k t = some k') (hcur : t ≠ k.cur) :
    k.status t ≠ .active ∧ ∃ a n L,
      k' = { k with next := n, lists := L, numActive := k.numActive + 1
                    status := update k.status t .active } ∧
      links k' = update (update (links k) a (some t)) (.inr t) none ∧
      (∀ l, a = .inl l → ∃ p, l = .activeThreads p) ∧
      ∀ l, (∀ p, l ≠ .activeThreads p) → L l = k.lists l := by
  rw [threadsAddActive] at h
  by_cases hact : k.status t = .active
  · simp [hact] at h
  simp only [hact, if_false, ne_eq, hcur, not_false_eq_true, if_true, Kernel.setStatus,
    bind_eq_bind] at h
  obtain ⟨k₁, hadd, h⟩ := bind_eq_some_iff.mp h
  obtain ⟨a, n, e, rfl, hlinks, hplace⟩ := threadsIntAddToList_links hadd
  cases h
  refine ⟨hact, a, n, _, rfl, hlinks, fun l hl => ⟨_, hplace l hl⟩, fun l hl => ?_⟩
  simp [hl]

theorem threadsIntSleep_links (k : Kernel T O) (st : ThreadStatus) (ptr : Option O) (num : ℤ)
    (l : ListName O) :
    ∃ a n e, threadsIntSleep k st ptr num (.queue l)
        = { k with next := n, lists := update k.lists l e, numActive := k.numActive - 1
                   status := update k.status k.cur st
                   retStatus := update k.retStatus k.cur num
                   waitPointer := update k.waitPointer k.cur ptr } ∧
      links (threadsIntSleep k st ptr num (.queue l))
        = update (update (links k) (.inr k.cur) none) a (some k.cur) ∧
      (e.head = (k.lists l).head ∨ e.head = some k.cur) := by
  cases htail : (k.lists l).tail with
  | some last =>
    refine ⟨.inr last, update (update k.next k.cur none) last (some k.cur),
      ⟨(k.lists l).head, some k.cur⟩, ?_, ?_, .inl rfl⟩
    · simp [threadsIntSleep, htail, Kernel.setList, Kernel.setNext, Kernel.setStatus,
        Kernel.setRetStatus, threadsRemActive]
    · rw [← links_setNext, ← links_setNext, threadsIntSleep]
      split <;> cases htail.symm.trans ‹_›
      exact links_setList_same (k := (k.setNext k.cur none).setNext last (some k.cur)) rfl
  | none =>
    refine ⟨.inl l, update k.next k.cur none, ⟨some k.cur, some k.cur⟩, ?_, ?_, .inr rfl⟩
    · simp [threadsIntSleep, htail, Kernel.setList, Kernel.setNext, Kernel.setStatus,
        Kernel.setRetStatus, threadsRemActive]
    · rw [← links_setNext, threadsIntSleep]
      split <;> cases htail.symm.trans ‹_›
      exact links_setList (k.setNext k.cur none) l ⟨some k.cur, some k.cur⟩

/-- The current thread is pointed at from nowhere while it runs. -/
structure Tidy (k : Kernel T O) : Prop where
  solo : Solo (links k)
  running : k.status k.cur = .active → Unpointed (links k) k.cur

theorem releaseLast_links {k₁ : Kernel T O} (hrel : releaseLast k k.cur = some k₁) :
    (Tidy k → Solo (links k₁)) ∧ ∃ n L, k₁ = { k with next := n, lists := L } ∧
      ∀ l, (∀ p, l ≠ .activeThreads p) → L l = k.lists l := by
  rw [releaseLast] at hrel
  split_ifs at hrel with hact
  · obtain ⟨a, n, e, rfl, hlinks, -⟩ := threadsIntAddToList_links hrel
    refine ⟨fun h => ?_, n, _, rfl, fun l hl => by simp [hl]⟩
    rw [hlinks]
    exact (h.solo.point (h.running hact) a).clear _
  · cases hrel
    exact ⟨Tidy.solo, k.next, k.lists, rfl, fun _ _ => rfl⟩

variable [Fintype T]

omit [Fintype T] in
theorem linkPast_shape (k : Kernel T O) (l : ListName O) (t : T) (prev : Option T) :
    ∃ n e, linkPast k l t prev = { k with next := n, lists := update k.lists l e } := by
  cases prev with
  | none => exact ⟨_, _, rfl⟩
  | some p => exact ⟨update k.next p (k.next t), k.lists l, by simp [linkPast, Kernel.setNext]⟩

theorem threadsIntDelFromQueue_links (h : threadsIntDelFromQueue k l t = some (true, k')) :
    ∃ a n e, k' = { k with next := n, lists := update k.lists l e } ∧
      links k' = update (links k) a (k.next t) ∧ links k a = some t ∧ a ≠ .inr t := by
  obtain ⟨r, hseek, h⟩ := bind_eq_some_iff.mp h
  cases r with
  | none => simp at h
  | some prev =>
    -- the tail pointer may be reset as well
    have hlinks : links k' = links (linkPast k l t prev) ∧
        ∃ n e, k' = { k with next := n, lists := update k.lists l e } := by
      obtain ⟨n, e, hpast⟩ := linkPast_shape k l t prev
      by_cases hn : k.next t = none
      · simp only [hn, if_true, some.injEq, Prod.mk.injEq, true_and] at h
        refine ⟨h ▸ links_setList_same rfl, n, ⟨e.head, prev⟩, ?_⟩
        rw [← h, hpast]
        simp [Kernel.setList]
      · simp only [hn, if_false, some.injEq, Prod.mk.injEq, true_and] at h
        exact ⟨by rw [h], n, e, by rw [← h, hpast]⟩
    obtain ⟨hlinks, n, e, hk'⟩ := hlinks
    rcases seek_pred hseek with ⟨rfl, hhead⟩ | ⟨y, rfl, hy, hyt⟩
    · exact ⟨.inl l, n, e, hk', hlinks.trans (links_setList _ _ _), hhead, by simp⟩
    · exact ⟨.inr y, n, e, hk', hlinks.trans (links_setNext _ _ _), hy, by simpa using hyt⟩

theorem dispatch_links {p : Priority} (hdisp : dispatch k p t = some k') :
    (Tidy k → Tidy k') ∧ ∃ n L, k' = { k with next := n, lists := L, cur := t } ∧
      ∀ l, (∀ p, l ≠ .activeThreads p) → L l = k.lists l := by
  obtain ⟨k₁, hrel, hdisp⟩ := bind_eq_some_iff.mp hdisp
  obtain ⟨hsolo, n, L, hk₁, hsame⟩ := releaseLast_links hrel
  by_cases hact : k₁.status t = .active
  · simp only [hact, ne_eq, not_true_eq_false, if_false] at hdisp
    obtain ⟨⟨found, k₂⟩, hdel, hdisp⟩ := bind_eq_some_iff.mp hdisp
    cases found with
    | false => simp at hdisp
    | true =>
      obtain ⟨a, n', e, hk₂, hlinks, ha, hat⟩ := threadsIntDelFromQueue_links hdel
      have hk' : links k' = update (update (links k₁) a (k₁.next t)) (.inr t) none := by
        rw [← hlinks, ← links_setNext, ← some.inj hdisp]
        rfl
      refine ⟨fun h => ?_, update n' t none, update L (.activeThreads p) e, ?_, ?_⟩
      · obtain ⟨hmove, hfree⟩ := (hsolo h).move hat ha
        refine ⟨by rw [hk']; exact hmove, fun _ => ?_⟩
        rw [hk', ← some.inj hdisp]
        exact hfree
      · rw [← some.inj hdisp, hk₂, hk₁]
        rfl
      · intro l hl
        rw [update_of_ne (hl p)]
        exact hsame l hl
  · simp [hact] at hdisp

end ThreadsLinks
