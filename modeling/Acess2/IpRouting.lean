import Acess2.IpAddresses

/-! The search for a route (`routing.c`). Interfaces are numbers; the interface list and the
route list are what following their links gives. -/
namespace IpRouting

open Function IpAddresses List Option

section Choice

/-! Keeping the best so far of what a loop meets, under an order of two levels. -/

variable {α : Type*} (key : α → ℤ × ℤ)

def Beats (x y : α) : Prop :=
  (key y).1 < (key x).1 ∨ (key x).1 = (key y).1 ∧ (key x).2 < (key y).2

instance (x y : α) : Decidable (Beats key x y) := inferInstanceAs (Decidable (_ ∨ _))

/-- `best = x`, unless the best so far is better -/
def choose (best : Option α) (x : α) : Option α :=
  match best with
  | none => some x
  | some b => if Beats key b x then some b else some x

/-- The best of what has been met, which is nothing only where nothing has been -/
structure Chosen (met : List α) (best : Option α) : Prop where
  null : best = none → met = []
  some : ∀ b, best = some b → b ∈ met ∧ ∀ x ∈ met, ¬ Beats key x b

variable {key} {met : List α} {best : Option α}

theorem Chosen.choose (h : Chosen key met best) (x : α) :
    Chosen key (met ++ [x]) (choose key best x) := by
  cases best with
  | none =>
    obtain rfl := h.null rfl
    refine ⟨fun hn => absurd hn (some_ne_none x), fun b hb => ?_⟩
    cases hb
    simp [Beats]
  | some c =>
    obtain ⟨hc, hbest⟩ := h.some c rfl
    simp only [IpRouting.choose]
    split_ifs with hbeats <;> refine ⟨fun hn => (some_ne_none _ hn).elim, fun b hb => ?_⟩ <;>
      obtain rfl := some.inj hb <;> simp only [mem_append, mem_singleton]
    · refine ⟨.inl hc, fun y hy => hy.elim (hbest y) ?_⟩
      rintro rfl
      simp only [Beats] at hbeats ⊢
      omega
    · refine ⟨.inr trivial, fun y hy => hy.elim (fun hy => ?_) ?_⟩
      · have hyc := hbest y hy
        simp only [Beats] at hbeats hyc ⊢
        omega
      · rintro rfl
        simp [Beats]

theorem Chosen.foldl (h : Chosen key met best) (xs : List α) :
    Chosen key (met ++ xs) (xs.foldl (IpRouting.choose key) best) := by
  induction xs generalizing met best with
  | nil => simpa using h
  | cons x xs ih => simpa using ih (h.choose x)

theorem chosen_foldl (key : α → ℤ × ℤ) (xs : List α) :
    Chosen key xs (xs.foldl (choose key) none) := by
  have hnone : Chosen key [] none := ⟨fun _ => rfl, fun b hb => absurd hb (by simp)⟩
  exact hnone.foldl xs

theorem choose_congr {key' : α → ℤ × ℤ} {x : α} (hx : key' x = key x)
    (hbest : ∀ b, best = some b → key' b = key b) : choose key' best x = choose key best x := by
  cases best with
  | none => rfl
  | some b =>
    have hbeats : Beats key' b x ↔ Beats key b x := by simp only [Beats, hx, hbest b rfl]
    simp only [choose, hbeats]

theorem choose_eq_some {x b : α} (h : choose key best x = some b) : b = x ∨ best = some b := by
  cases best with
  | none => exact .inl (some.inj h).symm
  | some c =>
    simp only [choose] at h
    split_ifs at h
    · exact .inr h
    · exact .inl (some.inj h).symm

end Choice

structure Route where
  interface : Option ℕ
  addressType : ℤ
  network : Address
  subnetBits : ℤ
  nextHop : Address
  metric : ℤ

def Route.key (r : Route) : ℤ × ℤ := (r.subnetBits, r.metric)

/-- `tInterface` with the route of its own -/
structure Interface where
  type : ℤ
  address : Address
  subnetBits : ℤ
  route : Route

structure Tables where
  routes : List Route
  iface : ℕ → Interface
  interfaces : List ℕ

/-- `DEFAUTL_METRIC` -/
def defaultMetric : ℤ := 30

section

variable (type : ℤ)

def upToDate (iface : Interface) (owner : Option ℕ) : Interface :=
  { iface with
    route :=
      { iface.route with
        network := fun b =>
          if b < getAddressSize type then iface.address b else iface.route.network b
        nextHop := fun b => if b < getAddressSize type then 0 else iface.route.nextHop b
        metric := defaultMetric
        subnetBits := iface.subnetBits
        interface := owner } }

def fill (m : ℕ → Interface) (i : ℕ) : ℕ → Interface :=
  if (m i).route.interface = none then update m i (upToDate type (m i) (some i)) else m

def findInterfaceRoute (address : Address) :
    List ℕ → (ℕ → Interface) → Option ℕ → Option ℕ × (ℕ → Interface)
  | [], m, best => (best, m)
  | i :: is, m, best =>
    if (m i).type ≠ type then findInterfaceRoute address is m best
    else if compareAddress type (m i).address address (m i).subnetBits = false then
      findInterfaceRoute address is m best
    else
      let m' := fill type m i
      findInterfaceRoute address is m' (choose (fun j => (m' j).route.key) best i)

def findExplicit (interface : Option ℕ) (address : Address) :
    List Route → Option Route → Option Route
  | [], best => best
  | rt :: rts, best =>
    if interface ≠ none ∧ rt.interface ≠ none ∧ rt.interface ≠ interface then
      findExplicit interface address rts best
    else if rt.addressType ≠ type then findExplicit interface address rts best
    else if compareAddress type rt.network address rt.subnetBits = false then
      findExplicit interface address rts best
    else findExplicit interface address rts (choose Route.key best rt)

end

inductive Found where
  | explicit (r : Route)
  | implicit (i : ℕ)

structure Query where
  type : ℤ
  interface : Option ℕ
  address : Address

def findImplicit (t : Tables) (q : Query) : Option Found × Tables :=
  match q.interface with
  | none =>
    let (best, m) := findInterfaceRoute q.type q.address t.interfaces t.iface none
    (best.map Found.implicit, { t with iface := m })
  | some i =>
    let iface := upToDate q.type (t.iface i) (t.iface i).route.interface
    (if compareAddress q.type iface.route.network q.address iface.route.subnetBits then
      some (.implicit i) else none, { t with iface := update t.iface i iface })

def findRoute (t : Tables) (q : Query) : Option Found × Tables :=
  if q.interface.any fun i => q.type ≠ (t.iface i).type then (none, t)
  else
    match findExplicit q.type q.interface q.address t.routes none with
    | some r => (some (.explicit r), t)
    | none => findImplicit t q

def after (t : Tables) (qs : List Query) : Tables := qs.foldl (fun t q => (findRoute t q).2) t

structure Candidate (t : Tables) (q : Query) (r : Route) : Prop where
  mem : r ∈ t.routes
  type : r.addressType = q.type
  bits : ∀ k < r.subnetBits.toNat, bitAt r.network k = bitAt q.address k
  bound : ∀ i, q.interface = some i → r.interface = none ∨ r.interface = some i

structure Direct (t : Tables) (q : Query) (i : ℕ) : Prop where
  mem : i ∈ t.interfaces
  type : (t.iface i).type = q.type
  bits : ∀ k < checkBits q.type (t.iface i).subnetBits,
    bitAt (t.iface i).address k = bitAt q.address k

/-- The answer `ans` to `q`, with the tables `t'` left behind -/
structure Right (t : Tables) (q : Query) (ans : Option Found) (t' : Tables) : Prop where
  explicit : ∀ r, ans = some (.explicit r) →
    Candidate t q r ∧ ∀ r', Candidate t q r' → ¬ Beats Route.key r' r
  implicit : ∀ i, ans = some (.implicit i) → q.interface = none →
    (∀ r, ¬ Candidate t q r) ∧ Direct t q i ∧
      ∀ j, Direct t q j → ¬ Beats (fun j => (t'.iface j).route.key) j i
  null : ans = none → q.interface = none → (∀ r, ¬ Candidate t q r) ∧ ∀ i, ¬ Direct t q i

def InRange (t : Tables) : Prop :=
  ∀ r ∈ t.routes, 0 ≤ r.subnetBits ∧ r.subnetBits ≤ getAddressSize r.addressType * 8

/-- A route that an interface has been given is the interface's own. -/
def Kept (m : ℕ → Interface) : Prop :=
  ∀ i, (m i).route.interface ≠ none → (m i).route.key = ((m i).subnetBits, defaultMetric)

structure Same (m m' : ℕ → Interface) : Prop where
  type : ∀ i, (m' i).type = (m i).type
  address : ∀ i, (m' i).address = (m i).address
  subnetBits : ∀ i, (m' i).subnetBits = (m i).subnetBits

variable {t : Tables} {q : Query} {m m' : ℕ → Interface} {type : ℤ} {address : Address}

theorem Same.refl (m : ℕ → Interface) : Same m m := ⟨fun _ => rfl, fun _ => rfl, fun _ => rfl⟩

theorem Same.trans {m'' : ℕ → Interface} (h : Same m m') (h' : Same m' m'') : Same m m'' :=
  ⟨fun i => (h'.type i).trans (h.type i), fun i => (h'.address i).trans (h.address i),
    fun i => (h'.subnetBits i).trans (h.subnetBits i)⟩

theorem same_update (m : ℕ → Interface) (type : ℤ) (i : ℕ) (owner : Option ℕ) :
    Same m (update m i (upToDate type (m i) owner)) := by
  constructor <;>
  · intro j
    by_cases hj : j = i
    · subst hj
      simp [upToDate]
    · simp [hj]

theorem kept_update (h : Kept m) (type : ℤ) (i : ℕ) (owner : Option ℕ) :
    Kept (update m i (upToDate type (m i) owner)) := by
  intro j hj
  by_cases hji : j = i
  · subst hji
    simp [upToDate, Route.key]
  · simpa [hji] using h j (by simpa [hji] using hj)

theorem fill_spec (h : Kept m) (type : ℤ) (i : ℕ) : Same m (fill type m i) ∧ Kept (fill type m i) ∧
      ∀ j, j = i ∨ (m j).route.interface ≠ none → (fill type m i j).route.interface ≠ none := by
  rw [fill]
  split_ifs with hnone
  · refine ⟨same_update .., kept_update h type i _, fun j hj => ?_⟩
    by_cases hji : j = i
    · subst hji
      simp [upToDate]
    · simpa [hji] using hj.resolve_left hji
  · refine ⟨Same.refl m, h, fun j hj => hj.elim ?_ id⟩
    rintro rfl
    exact hnone

theorem findExplicit_eq (hrange : InRange t) {rts : List Route}
    (hsub : ∀ r ∈ rts, r ∈ t.routes) [DecidablePred (Candidate t q)] (best : Option Route) :
    findExplicit q.type q.interface q.address rts best =
      (rts.filter (Candidate t q)).foldl (choose Route.key) best := by
  induction rts generalizing best with
  | nil => rfl
  | cons rt rts ih =>
    have ih := ih fun r hr => hsub r (mem_cons_of_mem _ hr)
    obtain ⟨h0, h1⟩ := hrange rt (hsub rt (mem_cons_self ..))
    have hbits := checkBits_of_range h0 h1
    have hskip (hno : ¬ Candidate t q rt) : findExplicit q.type q.interface q.address rts best =
        ((rt :: rts).filter (Candidate t q)).foldl (choose Route.key) best := by
      rw [ih, filter_cons_of_neg (by simpa using hno)]
    rw [findExplicit]
    split_ifs with hbound htype hcmp
    · refine hskip fun hc => ?_
      obtain ⟨i, hi⟩ := ne_none_iff_exists'.mp hbound.1
      rcases hc.bound i hi with hno | hsome
      · exact hbound.2.1 hno
      · exact hbound.2.2 (hsome.trans hi.symm)
    · exact hskip fun hc => htype hc.type
    · refine hskip fun hc => Bool.eq_false_iff.mp hcmp ?_
      rw [hc.type] at hbits
      exact (compareAddress_iff ..).mpr (hbits ▸ hc.bits)
    have htype := not_not.mp htype
    rw [htype] at hbits
    have hbits := hbits ▸ (compareAddress_iff ..).mp (Bool.not_eq_false _ ▸ hcmp)
    have hc : Candidate t q rt := by
      refine ⟨hsub rt (mem_cons_self ..), htype, hbits, fun i hi => ?_⟩
      by_contra hno
      rw [hi] at hbound
      exact hbound ⟨by simp, fun h => hno (.inl h), fun h => hno (.inr h)⟩
    rw [ih, filter_cons_of_pos (by simpa using hc), foldl_cons]

def ifaceKey (m : ℕ → Interface) (i : ℕ) : ℤ × ℤ := ((m i).subnetBits, defaultMetric)

theorem Same.key_eq (h : Same m m') (hkept : Kept m') {i : ℕ}
    (hi : (m' i).route.interface ≠ none) : (m' i).route.key = ifaceKey m i := by
  rw [hkept i hi, h.subnetBits, ifaceKey]

theorem findInterfaceRoute_spec {m₀ : ℕ → Interface} (is : List ℕ) (best : Option ℕ)
    {p : ℕ → Bool} (hp : ∀ i, p i = true ↔ (m₀ i).type = type ∧
      compareAddress type (m₀ i).address address (m₀ i).subnetBits = true)
    (hsame : Same m₀ m) (hkept : Kept m)
    (hbest : ∀ b, best = some b → (m b).route.interface ≠ none) :
    let out := findInterfaceRoute type address is m best
    Same m₀ out.2 ∧ Kept out.2 ∧
      (∀ i, i ∈ is.filter p ∨ (m i).route.interface ≠ none → (out.2 i).route.interface ≠ none) ∧
      out.1 = (is.filter p).foldl (choose (ifaceKey m₀)) best := by
  induction is generalizing m best with
  | nil => exact ⟨hsame, hkept, fun i hi => hi.resolve_left not_mem_nil, rfl⟩
  | cons i is ih =>
    have hi := hp i
    rw [← hsame.type, ← hsame.address, ← hsame.subnetBits] at hi
    rw [findInterfaceRoute]
    split_ifs with htype hcmp
    · rw [filter_cons_of_neg fun h => htype (hi.mp h).1]
      exact ih best hsame hkept hbest
    · rw [filter_cons_of_neg fun h => Bool.eq_false_iff.mp hcmp (hi.mp h).2]
      exact ih best hsame hkept hbest
    rw [filter_cons_of_pos (hi.mpr ⟨not_not.mp htype, Bool.not_eq_false _ ▸ hcmp⟩)]
    obtain ⟨hfill, hkept', hset⟩ := fill_spec hkept type i
    have hsame' := hsame.trans hfill
    have hchoose := choose_congr (hsame'.key_eq hkept' (hset i (.inl rfl))) fun b hb =>
      hsame'.key_eq hkept' (hset b (.inr (hbest b hb)))
    obtain ⟨hsame'', hkept'', hset', hout⟩ := ih (m := fill type m i)
      (choose (fun j => (fill type m i j).route.key) best i) hsame' hkept' fun b hb =>
        hset b ((choose_eq_some hb).imp_right (hbest b))
    refine ⟨hsame'', hkept'', fun j hj => hset' j ?_, ?_⟩
    · rw [mem_cons] at hj
      rcases hj with (hji | hj) | hj
      · exact .inr (hset j (.inl hji))
      · exact .inl hj
      · exact .inr (hset j (.inr hj))
    · rw [hout, foldl_cons, hchoose]

/-- Without an explicit route, the answer is that of the interfaces. -/
theorem findImplicit_spec (hkept : Kept t.iface) (hno : ∀ r, ¬ Candidate t q r) :
    Right t q (findImplicit t q).1 (findImplicit t q).2 ∧ Kept (findImplicit t q).2.iface ∧
      (findImplicit t q).2.routes = t.routes := by
  classical
  rw [findImplicit]
  cases hq : q.interface with
  | some i =>
    refine ⟨⟨fun r hr => ?_, fun _ _ hn => ?_, fun _ hn => ?_⟩, kept_update hkept q.type i _, rfl⟩
    · dsimp only at hr
      split_ifs at hr
      simp at hr
    · exact absurd (hq.symm.trans hn) (some_ne_none i)
    · exact absurd (hq.symm.trans hn) (some_ne_none i)
  | none =>
    obtain ⟨hsame, hkept', hset, hout⟩ := findInterfaceRoute_spec t.interfaces none
      (p := fun i => (t.iface i).type = q.type ∧
        compareAddress q.type (t.iface i).address q.address (t.iface i).subnetBits = true)
      (fun i => decide_eq_true_iff) (Same.refl _) hkept (fun b hb => absurd hb (by simp))
    have hchosen := chosen_foldl (ifaceKey t.iface) (t.interfaces.filter fun i =>
      (t.iface i).type = q.type ∧
        compareAddress q.type (t.iface i).address q.address (t.iface i).subnetBits = true)
    rw [← hout] at hchosen
    have hmem : ∀ i, (i ∈ t.interfaces.filter fun i => (t.iface i).type = q.type ∧
        compareAddress q.type (t.iface i).address q.address (t.iface i).subnetBits = true) ↔
        Direct t q i := fun i => by
      rw [mem_filter, decide_eq_true_iff, compareAddress_iff]
      exact ⟨fun h => ⟨h.1, h.2.1, h.2.2⟩, fun h => ⟨h.mem, h.type, h.bits⟩⟩
    generalize findInterfaceRoute q.type q.address t.interfaces t.iface none = out at *
    have hkey : ∀ i, Direct t q i → (out.2 i).route.key = ifaceKey t.iface i := fun i hi =>
      hsame.key_eq hkept' (hset i (.inl ((hmem i).mpr hi)))
    refine ⟨⟨fun r hr => ?_, fun i hi _ => ⟨hno, ?_⟩, fun hn _ => ⟨hno, fun i hi => ?_⟩⟩,
      hkept', rfl⟩
    · obtain ⟨j, -, hj⟩ := map_eq_some_iff.mp hr
      cases hj
    · obtain ⟨j, hj, hji⟩ := map_eq_some_iff.mp hi
      obtain rfl : j = i := by simpa using hji
      obtain ⟨hj, hbest⟩ := hchosen.some j hj
      have hjd := (hmem j).mp hj
      refine ⟨hjd, fun k hk hbeats => hbest k ((hmem k).mpr hk) ?_⟩
      simpa only [Beats, hkey k hk, hkey j hjd] using hbeats
    · have hempty := (hmem i).mpr hi
      rw [hchosen.null (map_eq_none_iff.mp hn)] at hempty
      exact absurd hempty not_mem_nil

theorem findRoute_spec (hkept : Kept t.iface) (hrange : InRange t) (q : Query) :
    Right t q (findRoute t q).1 (findRoute t q).2 ∧ Kept (findRoute t q).2.iface ∧
      (findRoute t q).2.routes = t.routes := by
  classical
  have hexplicit := findExplicit_eq (q := q) hrange (fun r hr => hr) none
  have hchosen := chosen_foldl Route.key (t.routes.filter (Candidate t q))
  rw [← hexplicit] at hchosen
  have hmem : ∀ r, r ∈ t.routes.filter (Candidate t q) ↔ Candidate t q r := fun r => by
    simpa using fun hr : Candidate t q r => hr.mem
  rw [findRoute]
  split_ifs with hother
  · refine ⟨⟨fun r hr => absurd hr (by simp), fun i hi => absurd hi (by simp), fun _ hq => ?_⟩,
      hkept, rfl⟩
    simp [hq] at hother
  cases hfound : findExplicit q.type q.interface q.address t.routes none with
  | some r =>
    obtain ⟨hr, hbest⟩ := hchosen.some r hfound
    refine ⟨⟨fun r' hr' => ?_, fun i hi => absurd hi (by simp), fun hn => absurd hn (by simp)⟩,
      hkept, rfl⟩
    obtain rfl : r = r' := by simpa using hr'
    exact ⟨(hmem r).mp hr, fun r' hr' => hbest r' ((hmem r').mpr hr')⟩
  | none =>
    have hno : ∀ r, ¬ Candidate t q r := fun r hr => by
      have hempty := (hmem r).mpr hr
      rw [hchosen.null hfound] at hempty
      exact absurd hempty not_mem_nil
    exact findImplicit_spec hkept hno

def office : Tables where
  routes := [⟨some 0, 4, fun b => ([10] : List UInt8).getD b 0, 8, fun _ => 0, 20⟩,
    ⟨none, 4, fun b => ([10, 2] : List UInt8).getD b 0, 16, fun _ => 0, 30⟩]
  iface _ := ⟨4, fun b => ([192, 168, 1, 5] : List UInt8).getD b 0, 24,
    ⟨none, 0, fun _ => 0, 0, fun _ => 0, 0⟩⟩
  interfaces := [0]

def toHost (a b c d : UInt8) : Query := ⟨4, none, fun i => ([a, b, c, d] : List UInt8).getD i 0⟩

end IpRouting
