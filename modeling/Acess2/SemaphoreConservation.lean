import Acess2.SemaphoreQueues

/-! The items of a semaphore.
What `Semaphore_Signal` adds is in the value or has been granted to waiters, as long as
`Semaphore_Wait` wakes no blocked signaller: it takes what it grants to one off the value
instead of adding it. The second way to lose items is a sum that leaves the range of `int`. -/
namespace SemaphoreConservation

open Function GuardedRuns List LocksModel Option ThreadsModel ThreadsQueues
open SemaphoreQueues (Side Call State step enter leave credit listOf Legal Start initial
  listOf_isWait listOf_injective)

variable {T O : Type} [DecidableEq T] [DecidableEq O]

/-- Amounts are not negative, and sleepers are woken by the other side only. -/
def Plain : Call T O → Prop
  | .wait _ n => 0 ≤ n
  | .signal _ n => 0 ≤ n
  | .wake _ => False
  | .timer _ => False
  | _ => True

/-- `Semaphore_Wait` meets no blocked signaller, and the sum of a `Semaphore_Signal` that does
not block is an `int`. -/
def Conserving (s : State T O) : Call T O → Prop
  | .wait sem _ => (s.kernel.lists (.semSignaling sem)).head = none
  | .signal sem n =>
    (s.kernel.semMax sem ≠ 0 → s.kernel.semValue sem ≠ s.kernel.semMax sem) →
      s.kernel.semValue sem + n < 2 ^ 31
  | _ => True

/-- The value is in its bounds, and is what the grants leave of the initial value. -/
structure Conserved (start : O → ℤ) (s : State T O) (sem : O) : Prop where
  nonneg : 0 ≤ s.kernel.semValue sem
  bounded : s.kernel.semMax sem ≠ 0 → s.kernel.semValue sem ≤ s.kernel.semMax sem
  balance : s.kernel.semValue sem
    = start sem + s.granted (.signal, sem) - s.granted (.wait, sem)

structure Inv [Fintype T] (start : O → ℤ) (s : State T O) (q : ListName O → List T) : Prop where
  queues : SemaphoreQueues.Inv s.kernel s.inside q
  conserved : ∀ sem, Conserved start s sem
  small : ∀ sem, s.kernel.semValue sem < 2 ^ 31 ∧ s.kernel.semMax sem < 2 ^ 31
  full : ∀ sem, q (.semSignaling sem) ≠ [] →
    s.kernel.semMax sem ≠ 0 ∧ s.kernel.semValue sem = s.kernel.semMax sem
  wanted : ∀ sem, ∀ t ∈ q (.semWaiting sem), 0 ≤ s.kernel.retStatus t
  blocked : ∀ t sem, s.inside t = some (.signal, sem) → t ∈ q (.semSignaling sem)

variable [Fintype T] {k : Kernel T O} {inside : T → Option (Side × O)} {q : ListName O → List T}
  {sem : O}

theorem wakeSignallers_idle (h : (k.lists (.semSignaling sem)).head ≠ none →
      k.semMax sem ≠ 0 ∧ k.semValue sem = k.semMax sem) :
    wakeSignallers sem (walkFuel T) k = some ([], k) := by
  cases hhead : (k.lists (.semSignaling sem)).head with
  | none => simp [wakeSignallers, wakeLoop, walkFuel, hhead]
  | some t =>
    obtain ⟨hmax, hval⟩ := h (by simp [hhead])
    simp [wakeSignallers, wakeLoop, walkFuel, hhead, hmax, hval]

structure Served (sem : O) (k : Kernel T O) (q : ListName O → List T) (gs : List ℤ)
    (k' : Kernel T O) (q' : ListName O → List T) : Prop where
  value : k'.semValue = update k.semValue sem (k.semValue sem - gs.sum)
  nonneg : 0 ≤ gs.sum
  enough : gs.sum ≤ k.semValue sem
  semMax : k'.semMax = k.semMax
  signallers : ∀ sem', q' (.semSignaling sem') = q (.semSignaling sem')
  waiters : ∀ sem', ∀ t ∈ q' (.semWaiting sem'),
    t ∈ q (.semWaiting sem') ∧ k'.retStatus t = k.retStatus t

omit [DecidableEq T] [Fintype T] in
theorem Served.none (hv : 0 ≤ k.semValue sem) : Served sem k q [] k q :=
  ⟨by simp, by simp, by simpa using hv, rfl, fun _ => rfl, fun _ _ ht => ⟨ht, rfl⟩⟩

omit [DecidableEq T] [Fintype T] in
theorem Served.cons {k₁ k' : Kernel T O} {q₁ q' : ListName O → List T} {given : ℤ} {gs : List ℤ}
    (h : Served sem k q [given] k₁ q₁) (h' : Served sem k₁ q₁ gs k' q') :
    Served sem k q (given :: gs) k' q' := by
  have hval : k₁.semValue sem = k.semValue sem - given := by simp [h.value]
  have hpos := h.nonneg
  have hrest := h'.nonneg
  have henough := h'.enough
  simp only [sum_cons, sum_nil, add_zero] at hpos
  refine ⟨?_, ?_, ?_, h'.semMax.trans h.semMax, fun sem' => ?_, fun sem' u hu => ?_⟩
  · rw [h'.value, hval, h.value, update_idem, sum_cons, Int.sub_sub]
  · rw [sum_cons]; omega
  · rw [sum_cons]; omega
  · rw [h'.signallers, h.signallers]
  · obtain ⟨hu₁, heq₁⟩ := h'.waiters sem' u hu
    obtain ⟨hu', heq⟩ := h.waiters sem' u hu₁
    exact ⟨hu', heq₁.trans heq⟩

theorem takenFrom_bounds {value limit : ℤ} (hv : 0 < value) (hl : 0 ≤ limit) :
    0 < takenFrom value limit ∧ takenFrom value limit ≤ value := by
  unfold takenFrom
  split_ifs <;> omega

theorem serve_first {t : T} {ts : List T} (h : SemaphoreQueues.Inv k inside q)
    (hq : q (.semWaiting sem) = t :: ts) (hv : 0 < k.semValue sem)
    (hsmall : k.semValue sem < 2 ^ 31) (hlimit : 0 ≤ k.retStatus t) :
    ∃ k₁ q₁, grant (popWaiter k (.semWaiting sem) t) sem t
        (takenFrom (k.semValue sem) (k.retStatus t)) = some k₁ ∧
      SemaphoreQueues.Inv k₁ inside q₁ ∧ q₁ (.semWaiting sem) = ts ∧
      Served sem k q [takenFrom (k.semValue sem) (k.retStatus t)] k₁ q₁ := by
  obtain ⟨hpos, hle⟩ := takenFrom_bounds hv hlimit
  obtain ⟨k₁, q₁, hgrant, hinv₁, hq₁, hother, -, -, hmax, hret, hval⟩ :=
    SemaphoreQueues.grant_spec (d := (.wait, sem)) (takenFrom (k.semValue sem) (k.retStatus t)) h hq
  have hother' : ∀ sem', sem' ≠ sem → q₁ (.semWaiting sem') = q (.semWaiting sem') :=
    fun sem' hs => hother (.wait, sem') (by simpa using hs)
  refine ⟨k₁, q₁, hgrant, hinv₁, hq₁, ?_, by simpa using hpos.le, by simpa using hle, hmax,
    fun sem' => hother (.signal, sem') (by simp), fun sem' u hu => ?_⟩
  · rw [hval, sum_singleton]
    congr 1
    exact wrap32_eq (by simp only; omega) (by simp only; omega)
  · -- the others that wait, here or elsewhere, keep what they asked for
    have hmem : u ∈ q (.semWaiting sem') ∧ u ≠ t := by
      by_cases hs : sem' = sem
      · subst hs
        have hnodup := h.placed.holds.nodup (.semWaiting sem')
        rw [hq] at hnodup
        have hu : u ∈ ts := hq₁ ▸ hu
        exact ⟨by simp [hq, hu], fun hut => (nodup_cons.mp hnodup).1 (hut ▸ hu)⟩
      · rw [hother' sem' hs] at hu
        refine ⟨hu, fun hut => hs ?_⟩
        have ht : u ∈ q (.semWaiting sem) := by simp [hq, hut]
        simpa using h.placed.holds.apart hu ht
    exact ⟨hmem.1, by rw [hret, update_of_ne hmem.2]⟩

theorem wakeWaiters_spec {n : ℕ} (sem : O) (h : SemaphoreQueues.Inv k inside q)
    (hn : (q (.semWaiting sem)).length < n) (hv : 0 ≤ k.semValue sem)
    (hsmall : k.semValue sem < 2 ^ 31) (hwanted : ∀ t ∈ q (.semWaiting sem), 0 ≤ k.retStatus t) :
    ∃ gs k' q', wakeWaiters sem n k = some (gs, k') ∧ SemaphoreQueues.Inv k' inside q' ∧
      Served sem k q gs k' q' := by
  induction n generalizing k q with
  | zero => exact absurd hn (by simp)
  | succ n ih =>
    have hhead := h.placed.holds.head_eq (.semWaiting sem)
    cases hq : q (.semWaiting sem) with
    | nil =>
      rw [hq] at hhead
      exact ⟨[], k, q, by simp [wakeWaiters, wakeLoop, hhead], h, .none hv⟩
    | cons t ts =>
      rw [hq] at hhead hn
      by_cases hmore : k.semValue sem = 0
      · exact ⟨[], k, q, by simp [wakeWaiters, wakeLoop, hhead, hmore], h, .none hv⟩
      obtain ⟨k₁, q₁, hgrant, hinv₁, hq₁, hserved⟩ :=
        serve_first h hq (by omega) hsmall (hwanted t (by simp [hq]))
      have hval₁ : k₁.semValue sem
          = k.semValue sem - takenFrom (k.semValue sem) (k.retStatus t) := by
        simp [hserved.value]
      have hpos := hserved.nonneg
      have hle := hserved.enough
      rw [sum_singleton] at hpos hle
      have hwanted₁ : ∀ u ∈ q₁ (.semWaiting sem), 0 ≤ k₁.retStatus u := fun u hu => by
        obtain ⟨hmem, heq⟩ := hserved.waiters sem u hu
        exact heq ▸ hwanted u hmem
      obtain ⟨gs, k', q', hloop, hinv', hserved'⟩ := ih hinv₁ (by simpa [hq₁] using hn)
        (by omega) (by omega) hwanted₁
      exact ⟨_ :: gs, k', q', wakeLoop_round hhead (by simpa using hmore) hgrant hloop, hinv',
        hserved.cons hserved'⟩

variable {start : O → ℤ} {s : State T O} {n : ℤ} {granted : Side × O → ℤ} {value : ℤ}

omit [DecidableEq T] in
theorem credit_other {a b side : Side} {x y : ℤ} {sem' : O} (h : sem' ≠ sem) :
    credit (credit granted (a, sem) x) (b, sem) y (side, sem') = granted (side, sem') := by
  simp [credit, h]

omit [DecidableEq T] [DecidableEq O] in
theorem Inv.unblocked (h : Inv start s q)
    (hhead : (s.kernel.lists (.semSignaling sem)).head = none) :
    q (.semSignaling sem) = [] := by
  rwa [h.queues.placed.holds.head_eq, head?_eq_none_iff] at hhead

omit [DecidableEq T] in
/-- A call changes the value of a semaphore that blocks no signaller, and serves waiters. -/
theorem Inv.settle {gs : List ℤ} {k' : Kernel T O} {q' : ListName O → List T}
    (h : Inv start s q) (hqueues : SemaphoreQueues.Inv k' s.inside q')
    (hserved : Served sem (setValue s.kernel sem value) q gs k' q') (hsmall : value < 2 ^ 31)
    (hmax : s.kernel.semMax sem ≠ 0 → value ≤ s.kernel.semMax sem)
    (hfree : q (.semSignaling sem) = [])
    (hbalance : value - gs.sum = start sem + granted (.signal, sem) - granted (.wait, sem))
    (hother : ∀ side sem', sem' ≠ sem → granted (side, sem') = s.granted (side, sem')) :
    Inv start ⟨k', s.inside, granted⟩ q' := by
  have hval : k'.semValue = update s.kernel.semValue sem (value - gs.sum) := by
    simpa [setValue] using hserved.value
  have henough : gs.sum ≤ value := by simpa [setValue] using hserved.enough
  have hmaxes : k'.semMax = s.kernel.semMax := hserved.semMax
  have hpos := hserved.nonneg
  refine ⟨hqueues, fun sem' => ?_, fun sem' => ?_, fun sem' hne => ?_, fun sem' t ht => ?_,
    fun t sem' ht => ?_⟩
  · by_cases hs : sem' = sem
    · subst hs
      have hv : k'.semValue sem' = value - gs.sum := by simp [hval]
      refine ⟨by simp only [hv]; omega, fun hne => ?_, by simp only [hv]; exact hbalance⟩
      simp only [hmaxes] at hne
      simp only [hv, hmaxes]
      exact le_trans (by omega) (hmax hne)
    · have hv : k'.semValue sem' = s.kernel.semValue sem' := by simp [hval, hs]
      obtain ⟨hnonneg, hbounded, hbal⟩ := h.conserved sem'
      refine ⟨by simpa only [hv] using hnonneg, by simpa only [hv, hmaxes] using hbounded, ?_⟩
      simpa only [hv, hother _ _ hs] using hbal
  · obtain ⟨hv, hm⟩ := h.small sem'
    refine ⟨?_, by simpa only [hmaxes] using hm⟩
    by_cases hs : sem' = sem
    · subst hs
      simp only [hval, update_self]
      omega
    · simpa only [hval, update_of_ne hs] using hv
  · rw [hserved.signallers] at hne
    have hs : sem' ≠ sem := fun hs => hne (hs ▸ hfree)
    simpa only [hmaxes, hval, update_of_ne hs] using h.full sem' hne
  · obtain ⟨ht', hret⟩ := hserved.waiters sem' t ht
    simp only [hret]
    exact h.wanted sem' t ht'
  · rw [hserved.signallers]
    exact h.blocked t sem' ht

theorem Inv.slept (d : Side × O) (num : ℤ) (h : Inv start s q)
    (hcur : s.kernel.status s.kernel.cur = .active)
    (hwait : d.1 = .wait → 0 ≤ num)
    (hsignal : d.1 = .signal →
      s.kernel.semMax d.2 ≠ 0 ∧ s.kernel.semValue d.2 = s.kernel.semMax d.2) :
    ∃ k', threadsIntSleep s.kernel .semaphoreSleep (some d.2) num (.queue (listOf d)) = k' ∧
      ∃ q', Inv start ⟨k', update s.inside s.kernel.cur (some d), s.granted⟩ q' := by
  obtain ⟨k', heq, hqueues, hval, hmaxes, hret⟩ :=
    SemaphoreQueues.sleep_inv (d := d) num h.queues hcur
  have hmem : ∀ (d' : Side × O) {t}, t ∈ update q (listOf d)
      (q (listOf d) ++ [s.kernel.cur]) (listOf d') ↔
      t ∈ q (listOf d') ∨ (t = s.kernel.cur ∧ d' = d) := by
    intro d' t
    by_cases hd : d' = d
    · subst hd; simp
    · simp [hd, listOf_injective.ne hd]
  refine ⟨k', heq, _, hqueues, fun sem' => ?_, fun sem' => ?_, fun sem' hne => ?_,
    fun sem' t ht => ?_, fun t sem' ht => ?_⟩
  · obtain ⟨hnonneg, hbounded, hbal⟩ := h.conserved sem'
    exact ⟨by simpa only [hval] using hnonneg, by simpa only [hval, hmaxes] using hbounded,
      by simpa only [hval] using hbal⟩
  · simpa only [hval, hmaxes] using h.small sem'
  · simp only [hval, hmaxes]
    obtain ⟨t, ht⟩ := exists_mem_of_ne_nil _ hne
    rcases (hmem (.signal, sem')).mp ht with ht | ⟨-, rfl⟩
    · exact h.full sem' (ne_nil_of_mem ht)
    · exact hsignal rfl
  · simp only [hret]
    rcases (hmem (.wait, sem')).mp ht with ht | ⟨rfl, rfl⟩
    · have htc : t ≠ s.kernel.cur := by
        rintro rfl
        exact h.queues.placed.cur_off hcur ht
      rw [update_of_ne htc]
      exact h.wanted sem' t ht
    · simpa using hwait rfl
  · refine (hmem (.signal, sem')).mpr ?_
    by_cases htc : t = s.kernel.cur
    · subst htc
      simp only [update_self, some.injEq] at ht
      exact .inr ⟨rfl, ht.symm⟩
    · simp only [update_of_ne htc] at ht
      exact .inl (h.blocked t sem' ht)

section

variable (h : Inv start s q) (hcur : s.kernel.status s.kernel.cur = .active)
include h hcur

theorem wait_inv (hn : 0 ≤ n) (hfree : (s.kernel.lists (.semSignaling sem)).head = none) :
    ∃ s', step s (.wait sem n) = some s' ∧ ∃ q', Inv start s' q' := by
  have hlimit : (if n < 0 then 0 else n) = n := if_neg (by omega)
  by_cases hv : s.kernel.semValue sem > 0
  · obtain ⟨hpos, hle⟩ := takenFrom_bounds hv hn
    obtain ⟨hsmall, -⟩ := h.small sem
    obtain ⟨hnonneg, hbounded, hbalance⟩ := h.conserved sem
    have hidle : ∀ v, wakeSignallers sem (walkFuel T) (setValue s.kernel sem v)
        = some ([], setValue s.kernel sem v) :=
      fun v => wakeSignallers_idle fun hne => absurd hfree hne
    have hwait := semaphoreWait_some hv n
    rw [hlimit, wrap32_eq (by omega) (by omega), hidle, map_some] at hwait
    refine ⟨_, map_eq_some_iff.mpr ⟨_, hwait, rfl⟩, q, ?_⟩
    set left := s.kernel.semValue sem - takenFrom (s.kernel.semValue sem) n with hleft
    have hserved : Served sem (setValue s.kernel sem left) q [] (setValue s.kernel sem left) q :=
      .none (by simp only [setValue, update_self]; omega)
    refine h.settle (h.queues.frame rfl fun _ _ => rfl) hserved (by omega)
      (fun hne => by have := hbounded hne; omega) (h.unblocked hfree) ?_
      fun side sem' hs => credit_other hs
    simp only [credit, sum_nil, update_self, Side.other, ne_eq, Prod.mk.injEq,
      reduceCtorEq, false_and, not_false_eq_true, update_of_ne]
    omega
  · obtain ⟨k', heq, q', hinv⟩ := h.slept (.wait, sem) n hcur (fun _ => hn) (fun hs => by cases hs)
    refine ⟨_, map_eq_some_iff.mpr ⟨(.slept, k'), ?_, rfl⟩, q', hinv⟩
    rw [semaphoreWait, hlimit, if_neg hv, ← heq]
    rfl

omit h hcur in
theorem addedTo_bounds {maxValue : ℤ} (hv : 0 ≤ value)
    (hmax : maxValue ≠ 0 → value ≤ maxValue) (hm : maxValue < 2 ^ 31) (hn : 0 ≤ n)
    (hsum : value + n < 2 ^ 31) :
    0 ≤ addedTo value maxValue n ∧ value + addedTo value maxValue n < 2 ^ 31 ∧
      (maxValue ≠ 0 → value + addedTo value maxValue n ≤ maxValue) := by
  unfold addedTo
  rw [wrap32_eq (by omega) hsum]
  split_ifs with h
  · rw [wrap32_eq (by omega) (by omega)]
    omega
  · omega

theorem signal_inv (hn : 0 ≤ n) (hsum : Conserving s (.signal sem n)) :
    ∃ s', step s (.signal sem n) = some s' ∧ ∃ q', Inv start s' q' := by
  by_cases hv : s.kernel.semMax sem ≠ 0 ∧ s.kernel.semValue sem = s.kernel.semMax sem
  · obtain ⟨k', heq, q', hinv⟩ := h.slept (.signal, sem) n hcur (fun hs => by cases hs) fun _ => hv
    refine ⟨_, map_eq_some_iff.mpr ⟨(.slept, k'), ?_, rfl⟩, q', hinv⟩
    rw [semaphoreSignal, if_pos hv, ← heq]
    rfl
  have hfree : q (.semSignaling sem) = [] := by
    by_contra hne
    exact hv (h.full sem hne)
  obtain ⟨hsmall, hmaxSmall⟩ := h.small sem
  obtain ⟨hnonneg, hbounded, hbalance⟩ := h.conserved sem
  obtain ⟨hadded, hfits, hmax⟩ := addedTo_bounds hnonneg hbounded hmaxSmall hn
    (hsum fun hne heq => hv ⟨hne, heq⟩)
  have hsignal := semaphoreSignal_space hv n
  rw [wrap32_eq (by omega) hfits] at hsignal
  have hset : ∀ v, SemaphoreQueues.Inv (setValue s.kernel sem v) s.inside q := fun v =>
    h.queues.frame rfl fun _ _ => rfl
  obtain ⟨gs, k', q', hloop, hqueues, hserved⟩ := wakeWaiters_spec sem
    (hset (s.kernel.semValue sem + addedTo (s.kernel.semValue sem) (s.kernel.semMax sem) n))
    (walk_short (h.queues.placed.holds.nodup _))
    (by simp only [setValue, update_self]; omega)
    (by simp only [setValue, update_self]; omega) (h.wanted sem)
  rw [hloop, map_some] at hsignal
  refine ⟨_, map_eq_some_iff.mpr ⟨_, hsignal, rfl⟩, q', ?_⟩
  refine h.settle hqueues hserved hfits hmax hfree ?_ fun side sem' hs => credit_other hs
  simp only [credit, update_self, Side.other, ne_eq, Prod.mk.injEq,
    reduceCtorEq, false_and, not_false_eq_true, update_of_ne]
  omega

theorem resume_inv (hin : s.inside s.kernel.cur ≠ none) :
    ∃ s', step s .resume = some s' ∧ ∃ q', Inv start s' q' := by
  obtain ⟨⟨side, sem⟩, hd⟩ := ne_none_iff_exists'.mp hin
  cases side with
  | signal =>
    exact absurd (h.blocked _ sem hd) (h.queues.placed.cur_off hcur)
  | wait =>
    have hidle : wakeSignallers sem (walkFuel T) (threadsIntSleepEnd s.kernel).2
        = some ([], (threadsIntSleepEnd s.kernel).2) := by
      refine wakeSignallers_idle fun hhead => h.full sem fun hq => hhead ?_
      exact (h.queues.placed.holds.head_eq _).trans (by rw [hq]; rfl)
    have hgranted : credit s.granted (.signal, sem) 0 = s.granted := by simp [credit]
    refine ⟨⟨(threadsIntSleepEnd s.kernel).2, update s.inside s.kernel.cur none, s.granted⟩,
      ?_, q, (h.queues.sleepEnd hcur).leave hcur, fun sem => { h.conserved sem with }, h.small,
      h.full, h.wanted, fun t sem' ht => ?_⟩
    · have hend : semaphoreWaitEnd s.kernel sem = some (.returned _ [], _) :=
        bind_eq_some_iff.mpr ⟨_, hidle, rfl⟩
      simp only [step, hd, hend, map_some, leave, Side.other, sum_nil, hgranted]
    · by_cases htc : t = s.kernel.cur
      · simp [htc] at ht
      · exact h.blocked t sem' (by simpa [htc] using ht)

end

theorem step_inv (s : State T O) (c : Call T O) (h : ∃ q, Inv start s q)
    (hc : Legal s c ∧ Plain c ∧ Conserving s c) :
    ∃ s', step s c = some s' ∧ ∃ q, Inv start s' q := by
  obtain ⟨q, h⟩ := h
  obtain ⟨hlegal, hplain, hconserving⟩ := hc
  cases c with
  | wait sem n => exact wait_inv h hlegal.1 hplain hconserving
  | signal sem n => exact signal_inv h hlegal.1 hplain hconserving
  | resume => exact resume_inv h hlegal.1 hlegal.2
  | wake t => exact hplain.elim
  | timer t => exact hplain.elim
  | dispatch p t =>
    obtain ⟨ht, rfl⟩ := hlegal
    obtain ⟨n, L, q', heq, hqueues, hq'⟩ := SemaphoreQueues.dispatch_inv h.queues ht
    have hsignal : ∀ sem, q' (.semSignaling sem) = q (.semSignaling sem) :=
      fun sem => hq' (.signal, sem)
    have hwait : ∀ sem, q' (.semWaiting sem) = q (.semWaiting sem) := fun sem => hq' (.wait, sem)
    exact ⟨_, map_eq_some_iff.mpr ⟨_, heq, rfl⟩, q', hqueues, fun sem => { h.conserved sem with },
      h.small, fun sem => hsignal sem ▸ h.full sem, fun sem => hwait sem ▸ h.wanted sem,
      fun u sem hu => hsignal sem ▸ h.blocked u sem hu⟩

def Initialised (k : Kernel T O) : Prop :=
  ∀ sem, 0 ≤ k.semValue sem ∧ (k.semMax sem ≠ 0 → k.semValue sem ≤ k.semMax sem) ∧
    k.semValue sem < 2 ^ 31 ∧ k.semMax sem < 2 ^ 31

omit [DecidableEq T] [DecidableEq O] in
theorem start_inv (h : Start k q) (hinit : Initialised k) : Inv k.semValue (initial k) q := by
  have hsignal : ∀ sem, q (.semSignaling sem) = [] := fun sem => h.unused (.signal, sem)
  have hwait : ∀ sem, q (.semWaiting sem) = [] := fun sem => h.unused (.wait, sem)
  refine ⟨SemaphoreQueues.start_inv h, fun sem => ?_, fun sem => (hinit sem).2.2,
    fun sem hne => absurd (hsignal sem) hne, fun sem t ht => ?_, fun t sem ht => ?_⟩
  · exact ⟨(hinit sem).1, (hinit sem).2.1, by simp [initial]⟩
  · simp [hwait] at ht
  · simp [initial] at ht

/-- Where no wait meets a blocked signaller and no sum overflows, the items are conserved. -/
theorem semaphore_conserves_while_no_signaller_is_met (hk : Start k q) (hinit : Initialised k)
    {cs : List (Call T O)}
    (hcs : Along step (fun s c => Legal s c ∧ Plain c ∧ Conserving s c) (initial k) cs) :
    ∃ s, run step (initial k) cs = some s ∧ ∀ sem, Conserved k.semValue s sem := by
  obtain ⟨s, hs, q', hinv⟩ := run_total step_inv ⟨q, start_inv hk hinit⟩ hcs
  exact ⟨s, hs, hinv.conserved⟩

open SemaphoreQueues (sharing sharing_start)

instance : DecidablePred (Plain (T := T) (O := O)) := fun c => by
  refine c.casesOn ?_ ?_ ?_ ?_ ?_ ?_ <;> intros <;> dsimp only [Plain] <;> infer_instance

instance (s : State T O) : DecidablePred (Conserving s) := fun c => by
  refine c.casesOn ?_ ?_ ?_ ?_ ?_ ?_ <;> intros <;> dsimp only [Conserving] <;> infer_instance

theorem sharing_initialised {maxValue : ℤ} (hv : 0 ≤ value) (hle : value ≤ maxValue)
    (hm : maxValue < 2 ^ 31) : Initialised (sharing value maxValue) :=
  fun _ => ⟨hv, fun _ => hle, lt_of_le_of_lt hle hm, hm⟩

/-- A waiter sleeps for two items and is given the one there is when it is signalled. -/
def waitFirstCalls : List (Call (Fin 3) Unit) :=
  [.wait () 2, .dispatch 0 1, .signal () 1, .dispatch 0 0, .resume, .signal () 5]

theorem semaphore_conserves_sample :
    ∃ s, Start (sharing 0 3) (readyLists [1, 2]) ∧ Initialised (sharing 0 3) ∧
      Along step (fun s c => Legal s c ∧ Plain c ∧ Conserving s c) (initial (sharing 0 3))
        waitFirstCalls ∧
      run step (initial (sharing 0 3)) waitFirstCalls = some s ∧
      s.kernel.semValue () = 3 ∧ s.granted (.wait, ()) = 1 ∧
      ∀ sem, Conserved (sharing 0 3).semValue s sem := by
  have hinit : Initialised (sharing 0 3) := sharing_initialised (by decide) (by decide) (by decide)
  have halong : Along step (fun s c => Legal s c ∧ Plain c ∧ Conserving s c)
      (initial (sharing 0 3)) waitFirstCalls := by
    decide +kernel
  have hrun : (run step (initial (sharing 0 3)) waitFirstCalls).map (fun s =>
      (s.kernel.semValue (), s.granted (.wait, ()))) = some (3, 1) := by
    decide +kernel
  obtain ⟨s, hs, hconserved⟩ :=
    semaphore_conserves_while_no_signaller_is_met (sharing_start 0 3) hinit halong
  rw [hs] at hrun
  obtain ⟨hval, hgranted⟩ := Prod.mk.inj (some.inj hrun)
  exact ⟨s, sharing_start 0 3, hinit, halong, hs, hval, hgranted, hconserved⟩

/-- A signaller blocks on a semaphore that holds its one item, and a waiter takes the item. -/
def signalFullCalls : List (Call (Fin 3) Unit) := [.signal () 1, .dispatch 0 1, .wait () 1]

theorem woken_signaller_takes_items_away :
    ∃ s, Start (sharing 1 1) (readyLists [1, 2]) ∧ Initialised (sharing 1 1) ∧
      Along step (fun s c => Legal s c ∧ Plain c) (initial (sharing 1 1)) signalFullCalls ∧
      run step (initial (sharing 1 1)) signalFullCalls = some s ∧
      s.granted (.wait, ()) = 1 ∧ s.granted (.signal, ()) = 1 ∧ s.kernel.semValue () = -1 ∧
      ¬ Conserved (sharing 1 1).semValue s () := by
  have halong : Along step (fun s c => Legal s c ∧ Plain c) (initial (sharing 1 1))
      signalFullCalls := by
    decide +kernel
  have hrun : (run step (initial (sharing 1 1)) signalFullCalls).map (fun s =>
      (s.granted (.wait, ()), s.granted (.signal, ()), s.kernel.semValue ())) =
        some (1, 1, -1) := by
    decide +kernel
  obtain ⟨s, hs, hend⟩ := map_eq_some_iff.mp hrun
  simp only [Prod.mk.injEq] at hend
  obtain ⟨hwait, hsignal, hval⟩ := hend
  refine ⟨s, sharing_start 1 1, sharing_initialised (by decide) (by decide) (by decide), halong,
    hs, hwait, hsignal, hval, fun hconserved => ?_⟩
  have hnonneg := hconserved.nonneg
  omega

end SemaphoreConservation
