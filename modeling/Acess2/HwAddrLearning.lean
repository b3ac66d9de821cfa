import Acess2.HwAddrCache

/-! What `HWCache_Resolve` returns (`hwaddr_cache.c`), beside what `HWCache_Set` has been told. -/
namespace HwAddrLearning

open Function GuardedRuns HwAddrCache IntrusiveLists Nat Option

variable {α μ : Type*}

inductive Outcome (μ : Type*) where
  | returns (mac : μ)
  | waits (ca : ℕ)
  | asks
  deriving DecidableEq

/-- How `HWCache_Resolve` goes on behind its search; a thread that waits on `ca` returns the
`HWAddr` of `ca` at its end. -/
def outcome [DecidableEq α] (c : Cache α μ) (dest : α) : Option (Outcome μ) :=
  (walk c.next (c.l3Addr · = dest) (c.nAddrs + 1) c.first).map fun
    | none => .asks
    | some ca => if 0 < c.waitingCount ca then .waits ca else .returns (c.hwAddr ca)

def note [DecidableEq α] (log : α → Option μ) : Op α μ → α → Option μ
  | .set l3Addr hwAddr => update log l3Addr (some hwAddr)
  | _ => log

def latest [DecidableEq α] (ops : List (Op α μ)) : α → Option μ :=
  ops.foldl note fun _ => none

/-- There is room; an address told again is waited for or nothing new; no last wait ends in vain. -/
def Answered [Zero μ] (maxSize : ℕ) (c : Cache α μ) : Op α μ → Prop
  | .resolve dest => Guard maxSize c (.resolve dest : Op α μ)
  | .result ca => 1 < c.waitingCount ca ∨ c.hwAddr ca ≠ 0
  | .set l3Addr hwAddr => Guard maxSize c (.resolve l3Addr : Op α μ) ∧
      ∀ ca < c.nAddrs, c.l3Addr ca = l3Addr → 0 < c.waitingCount ca ∨ c.hwAddr ca = hwAddr

instance [DecidableEq α] [Zero μ] [DecidableEq μ] (maxSize : ℕ) (c : Cache α μ) :
    DecidablePred (Answered maxSize c) := fun c => by
  refine c.casesOn ?_ ?_ ?_ <;> intros <;> dsimp only [Answered] <;> infer_instance

structure Learned [Zero μ] (log : α → Option μ) (c : Cache α μ) : Prop where
  known : ∀ a mac, log a = some mac → ∃ ca < c.nAddrs, c.l3Addr ca = a
  latest : ∀ ca < c.nAddrs, ∀ mac, log (c.l3Addr ca) = some mac → c.hwAddr ca = mac
  asked : ∀ ca < c.nAddrs, log (c.l3Addr ca) = none → c.hwAddr ca = 0 ∧ 0 < c.waitingCount ca

variable [Zero μ] {type : ℤ} {maxSize : ℕ} {c c' : Cache α μ} {xs : List ℕ} {dest : α} {hw : μ}
  {ca : ℕ} {log log' : α → Option μ} {last : Option ℕ}

theorem Learned.resolveFound (h : Learned log c) (hrun : resolveFound c last ca = .ok c') :
    Learned log c' := by
  have hmoved : Learned log (if c.first ≠ some ca then toFront c last ca else c) := by
    split_ifs
    · cases last <;> exact { h with }
    · exact h
  simp only [HwAddrCache.resolveFound] at hrun
  generalize (if c.first ≠ some ca then toFront c last ca else c) = c₁ at *
  split_ifs at hrun <;> cases hrun
  · refine ⟨hmoved.known, hmoved.latest, fun a ha hlog => ?_⟩
    refine (hmoved.asked a ha hlog).imp_right fun hpos => ?_
    by_cases hac : a = ca <;> simp_all [wait]
  · exact hmoved

theorem Learned.insert (h : Learned log c) (hnew : ∀ a < c.nAddrs, c.l3Addr a ≠ dest)
    (hn : c'.nAddrs = c.nAddrs + 1) (hl3 : c'.l3Addr = update c.l3Addr c.nAddrs dest)
    (hhw : c'.hwAddr = update c.hwAddr c.nAddrs hw)
    (hcount : ∀ a < c.nAddrs, c'.waitingCount a = c.waitingCount a)
    (hlog : ∀ a, a ≠ dest → log' a = log a)
    (hself : log' dest = some hw ∨ log' dest = none ∧ hw = 0 ∧ 0 < c'.waitingCount c.nAddrs) :
    Learned log' c' := by
  have hcases : ∀ a < c'.nAddrs, a = c.nAddrs ∨ a < c.nAddrs ∧ c'.l3Addr a = c.l3Addr a ∧
      c'.hwAddr a = c.hwAddr a ∧ log' (c.l3Addr a) = log (c.l3Addr a) := by
    intro a ha
    rcases Nat.lt_succ_iff_lt_or_eq.mp (hn ▸ ha) with hlt | heq
    · exact .inr ⟨hlt, by simp [hl3, hlt.ne], by simp [hhw, hlt.ne], hlog _ (hnew a hlt)⟩
    · exact .inl heq
  refine ⟨fun a mac ha => ?_, fun a ha mac hmac => ?_, fun a ha hnone => ?_⟩
  · by_cases had : a = dest
    · exact ⟨c.nAddrs, hn ▸ Nat.lt_succ_self _, by simp [hl3, had]⟩
    · obtain ⟨ca, hca, hcaa⟩ := h.known a mac (hlog a had ▸ ha)
      exact ⟨ca, hn ▸ Nat.lt_succ_of_lt hca, by simp [hl3, hca.ne, hcaa]⟩
  · rcases hcases a ha with rfl | ⟨hlt, h₁, h₂, h₃⟩
    · simp_all
    · exact h₂ ▸ h.latest a hlt mac (by rw [← h₃, ← h₁, hmac])
  · rcases hcases a ha with rfl | ⟨hlt, h₁, h₂, h₃⟩
    · simp_all
    · rw [h₂, hcount a hlt]
      exact h.asked a hlt (by rw [← h₃, ← h₁, hnone])

theorem Learned.result (h : Learned log c) (hguard : Answered maxSize c (.result ca))
    (hrun : result c ca = .ok c') : Learned log c' := by
  rw [HwAddrCache.result] at hrun
  split_ifs at hrun
  cases hrun
  refine ⟨h.known, h.latest, fun a ha hnone => (h.asked a ha hnone).imp_right fun hpos => ?_⟩
  by_cases hac : a = ca
  · subst hac
    have hmore := hguard.resolve_right (not_not.mpr (h.asked a ha hnone).1)
    simpa using Nat.sub_pos_of_lt hmore
  · simpa [hac] using hpos

variable [DecidableEq α]

theorem Learned.resolve (h : Learned log c) (hc : Sound maxSize c xs)
    (hguard : Guard maxSize c (.resolve dest : Op α μ))
    (hrun : resolve type maxSize c dest = .ok c') : Learned log c' := by
  rw [HwAddrCache.resolve, hc.search, foldl_last, or_none] at hrun
  cases hfind : xs.find? (c.l3Addr · = dest) with
  | some ca =>
    rw [hfind] at hrun
    exact h.resolveFound hrun
  | none =>
    have hnew := hc.find_none.mp hfind
    have hroom : c.nAddrs < maxSize := hguard.resolve_left fun hex => hex.elim fun a ha =>
      hnew a ha.1 ha.2
    have hlog : log dest = none := eq_none_iff_forall_ne_some.mpr fun mac hmac => by
      obtain ⟨a, ha, heq⟩ := h.known dest mac hmac
      exact hnew a ha heq
    simp only [hfind, resolveNew, if_neg (not_le.mpr hroom)] at hrun
    split_ifs at hrun <;> obtain rfl := Except.ok.inj hrun <;>
      cases (xs.takeWhile fun a => !decide (c.l3Addr a = dest)).getLast? <;>
      refine h.insert hnew rfl rfl rfl (fun a ha => ?_) (fun _ _ => rfl)
        (.inr ⟨hlog, rfl, by simp [wait]⟩) <;>
      simp [wait, newEntry, toFront, linkAfter, ha.ne]

theorem Learned.set (h : Learned log c) (hc : Sound maxSize c xs)
    (hguard : Answered maxSize c (.set dest hw))
    (hrun : set maxSize c dest hw = .ok c') : Learned (update log dest (some hw)) c' := by
  rw [HwAddrCache.set, hc.search, foldl_unused, or_none, or_none] at hrun
  have hother : ∀ a, a ≠ dest → update log dest (some hw) a = log a :=
    fun a ha => update_of_ne ha ..
  cases hfind : xs.find? (c.l3Addr · = dest) with
  | some ca =>
    obtain ⟨hca, hcadest⟩ := hc.find_some.mp hfind
    rw [hfind] at hrun
    have hc' : c' = { c with hwAddr := update c.hwAddr ca hw } := by
      refine (Except.ok.inj hrun).symm.trans ?_
      split_ifs with hwait
      · rfl
      · have hsame : c.hwAddr ca = hw := (hguard.2 ca hca hcadest).resolve_left (by omega)
        rw [← hsame, update_eq_self]
    have hne : ∀ a < c.nAddrs, a ≠ ca → c.l3Addr a ≠ dest := fun a ha hac heq =>
      hac (some.inj ((hc.find_some.mpr ⟨ha, heq⟩).symm.trans hfind))
    subst hc'
    refine ⟨fun a mac ha => ?_, fun a ha mac hmac => ?_, fun a ha hnone => ?_⟩
    · by_cases had : a = dest
      · exact ⟨ca, hca, hcadest.trans had.symm⟩
      · exact h.known a mac (hother a had ▸ ha)
    · by_cases hac : a = ca
      · subst hac
        simpa [hcadest] using hmac
      · rw [hother _ (hne a ha hac)] at hmac
        simpa [hac] using h.latest a ha mac hmac
    · have hac : a ≠ ca := by
        rintro rfl
        simp [hcadest] at hnone
      rw [hother _ (hne a ha hac)] at hnone
      simpa [hac] using h.asked a ha hnone
  | none =>
    have hnew := hc.find_none.mp hfind
    have hroom : c.nAddrs < maxSize := hguard.1.resolve_left fun hex => hex.elim fun a ha =>
      hnew a ha.1 ha.2
    simp only [hfind, if_pos hroom] at hrun
    cases hrun
    cases (xs.takeWhile fun a => !decide (c.l3Addr a = dest)).getLast? <;>
      exact h.insert hnew rfl rfl rfl (fun a ha => by simp [newEntry, linkAfter, ha.ne]) hother
        (.inl (update_self ..))

theorem learned_step {op : Op α μ} (h : Learned log c ∧ ∃ xs, Sound maxSize c xs)
    (hguard : Answered maxSize c op) (hstep : step type maxSize c op = some c') :
    Learned (note log op) c' ∧ ∃ xs, Sound maxSize c' xs := by
  obtain ⟨hl, xs, hc⟩ := h
  have hexec : exec type maxSize c op = .ok c' := by
    rw [step] at hstep
    cases hexec : exec type maxSize c op <;> simp_all [Except.toOption]
  have hroom : Guard maxSize c op := by
    cases op with
    | resolve dest => exact hguard
    | result ca => trivial
    | set l3Addr hwAddr => trivial
  refine ⟨?_, ((exec_spec hc hroom).2 c' hexec).1⟩
  cases op with
  | resolve dest => exact hl.resolve hc hguard hexec
  | result ca =>
    rw [exec] at hexec
    split_ifs at hexec
    · exact hl.result hguard hexec
    · exact Except.ok.inj hexec ▸ hl
  | set l3Addr hwAddr => exact hl.set hc hguard hexec

/-- Looking up `a` gives what was last told of it, also to a thread that has to wait; if nothing
was, it is asked for. -/
structure Learns (ops : List (Op α μ)) (c : Cache α μ) (a : α) : Prop where
  told : ∀ mac, latest ops a = some mac → outcome c a = some (.returns mac) ∨
    ∃ ca, outcome c a = some (.waits ca) ∧ c.hwAddr ca = mac
  untold : latest ops a = none → ∀ mac, outcome c a ≠ some (.returns mac)
  waiting : ∀ ca ∈ c.waiters, c.l3Addr ca = a → ∀ mac, latest ops a = some mac → c.hwAddr ca = mac

theorem resolution_learns [Inhabited α] (type : ℤ) (maxSize : ℕ) (ops : List (Op α μ))
    {c : Cache α μ} (hguard : Along (step type maxSize) (Answered maxSize) empty ops)
    (hrun : run (step type maxSize) empty ops = some c) (a : α) : Learns ops c a := by
  let Inv (log : α → Option μ) (c : Cache α μ) := Learned log c ∧ ∃ xs, Sound maxSize c xs
  have hempty : Inv (fun _ => none) empty := ⟨⟨fun a mac ha => (by cases ha),
    fun ca hca => absurd hca (not_lt_zero ca), fun ca hca => absurd hca (not_lt_zero ca)⟩,
    [], by constructor <;> simp [empty, Linked]⟩
  have hstep : ∀ log c op c', Inv log c → Answered maxSize c op →
      step type maxSize c op = some c' → Inv (note log op) c' := fun _ _ _ _ => learned_step
  obtain ⟨hl, xs, hc⟩ := run_fold note hstep hempty hguard hrun
  have hwalk : walk c.next (c.l3Addr · = a) (c.nAddrs + 1) c.first =
      some (xs.find? (c.l3Addr · = a)) :=
    walk_eq hc.linked (by rw [hc.length_eq]; exact lt_succ_self _)
  refine ⟨fun mac hmac => ?_, fun hnone mac hmac => ?_, ?_⟩
  · obtain ⟨ca, hca, rfl⟩ := hl.known a mac hmac
    rw [outcome, hwalk, hc.find_some.mpr ⟨hca, rfl⟩, ← hl.latest ca hca mac hmac]
    by_cases hpos : 0 < c.waitingCount ca <;> simp [hpos]
  · rw [outcome, hwalk] at hmac
    cases hfind : xs.find? (c.l3Addr · = a) with
    | none => simp [hfind] at hmac
    | some ca =>
      obtain ⟨hca, rfl⟩ := hc.find_some.mp hfind
      simp [hfind, (hl.asked ca hca hnone).2] at hmac
  · rintro ca hca rfl mac
    exact hl.latest ca (hc.inside ca hca) mac

def askedAndTold : List (Op ℕ ℕ) :=
  [.set 1 7, .resolve 2, .set 2 8, .set 2 9, .result 1, .resolve 2, .set 1 7, .resolve 3]

theorem askedAndTold_learns : Along (step 4 3) (Answered 3) empty askedAndTold ∧
      ∃ c, run (step 4 3) empty askedAndTold = some c ∧ Learns askedAndTold c 2 := by
  have hguard : Along (step 4 3) (Answered 3) empty askedAndTold := by decide +kernel
  obtain ⟨c, hc⟩ : ∃ c, run (step 4 3) empty askedAndTold = some c :=
    isSome_iff_exists.mp (by decide +kernel)
  exact ⟨hguard, c, hc, resolution_learns 4 3 askedAndTold hguard hc 2⟩

/-- A changed hardware address is not followed, and a host that was late is not asked again. -/
theorem told_again_forgotten :
    ((run (step 4 cacheSize) empty [.set 1 7, .set 1 8]).bind (outcome · 1) =
        some (.returns 7) ∧ latest [.set 1 7, .set 1 8] 1 = some 8) ∧
      (run (step 4 cacheSize) (empty : Cache ℕ ℕ) [.resolve 1, .result 0]).bind (outcome · 1) =
        some (.returns 0) ∧ latest ([.resolve 1, .result 0] : List (Op ℕ ℕ)) 1 = none := by
  decide +kernel

end HwAddrLearning
