import Mathlib.Data.List.Perm.Subperm
import Acess2.GuardedRuns
import Acess2.IntrusiveLists
import Acess2.IpRouting
import Acess2.Strtoi

/-! The list of explicit routes (`routing.c`), with the names by which routes are made and
unlinked in its directory. A name is what stands before its null character; reading behind that,
using a null pointer or a freed route, and writing outside of a route are errors. -/
namespace RouteTable

open Function GuardedRuns IntrusiveLists IpAddresses List Option
open IpRouting (Route)

inductive Halt where
  | overrun
  | null
  | outside
  | endless
  deriving DecidableEq

/-- The first character that is wanted, with what follows; the search does not stop at the end. -/
def skipTo (wanted : UInt8 → Bool) : List UInt8 → Except Halt (List UInt8)
  | [] => .error .overrun
  | c :: s => if wanted c then .ok (c :: s) else skipTo wanted s

def readDigits (base : ℕ) : Int32 → List UInt8 → Int32 × List UInt8
  | ret, [] => (ret, [])
  | ret, c :: s =>
    match Strtoi.digitOf base c with
    | none => (ret, c :: s)
    | some d => readDigits base (ret * Int32.ofNat base + Int32.ofNat d) s

/-- `ParseInt`, behind the sign: hexadecimal, octal or decimal. Without a result the length is 0. -/
def parseNumber : List UInt8 → Option (Int32 × List UInt8)
  | 48 :: 120 :: s => some (readDigits 16 0 s)
  | 48 :: s => some (readDigits 8 0 s)
  | s => if (readDigits 10 0 s).1 = 0 then none else some (readDigits 10 0 s)

def parseInt (s : List UInt8) : Except Halt (Option (ℤ × List UInt8)) := do
  let s ← skipTo (fun c => Strtoi.kernelIsdigit c ∨ c = 45) s
  let neg := s.head? = some 45
  let s ← skipTo Strtoi.kernelIsdigit s
  return (parseNumber s).map fun (ret, rest) => (if neg then (-ret).toInt else ret.toInt, rest)

def nibble (c : UInt8) : UInt8 := ((Strtoi.digitOf 16 c).getD 0).toUInt8

/-- `UnHex`, of so many bytes -/
def unHex : ℕ → List UInt8 → List UInt8
  | n + 1, a :: b :: s => (nibble a <<< 4 ||| nibble b) :: unHex n s
  | _, _ => []

structure RouteName where
  type : ℤ
  network : Address
  subnetBits : ℤ
  metric : ℤ

def colon : List UInt8 → Option (List UInt8)
  | 58 :: s => some s
  | _ => none

def parseNumbers (s : List UInt8) : Except Halt (Option (ℤ × ℤ)) := do
  let some (subnetBits, s) ← parseInt s | return none
  let some s := colon s | return none
  let some (metric, s) ← parseInt s | return none
  return if s = [] then some (subnetBits, metric) else none

def parseNetwork (type : ℤ) (s : List UInt8) : Except Halt (Option RouteName) :=
  let n := getAddressSize type * 2
  if s.length < n then .error .overrun
  else
    match colon (s.drop n) with
    | none => .ok none
    | some rest => (parseNumbers rest).map fun r => r.map fun (subnetBits, metric) =>
        ⟨type, fun b => (unHex (getAddressSize type) s).getD b 0, subnetBits, metric⟩

/-- `_Route_ParseRouteName`, for names whose type is positive -/
def parseRouteName (s : List UInt8) : Except Halt (Option RouteName) := do
  let some (type, s) ← parseInt s | return none
  let some s := colon s | return none
  let name ← parseNetwork type s
  return if 0 < type then name else none

structure Table where
  mem : ℕ → Option Route
  next : ℕ → Option ℕ
  routes : Option ℕ
  routesEnd : Option ℕ
  /-- `giIP_NextRouteId`, and the next allocation -/
  nextRouteId : ℕ
  /-- the routes that `MkNod` has made -/
  made : List ℕ

def isRoute (type : ℤ) (network : Address) (subnet metric : ℤ) (rt : Route) : Bool :=
  rt.addressType = type ∧ rt.metric = metric ∧ rt.subnetBits = subnet ∧
    compareAddress type rt.network network (-1)

def findExactRoute (t : Table) (n : RouteName) : Option (Option ℕ) :=
  walk t.next (fun a => (t.mem a).any (isRoute n.type n.network n.subnetBits n.metric))
    (t.nextRouteId + 1) t.routes

def clearBits (size : ℕ) (bits : ℤ) (network : Address) : Address := fun b =>
  if size ≤ b then 0
  else if b < bits.toNat / 8 then network b
  else if b = bits.toNat / 8 ∧ 0 ≤ bits then network b &&& maskOf (bits.toNat % 8)
  else 0

section

variable (t : Table)

def append (rt : ℕ) : Except Halt Table :=
  match t.routesEnd with
  | some e =>
    if t.mem e = none then .error .outside
    else .ok { t with next := update t.next e (some rt), routesEnd := some rt }
  | none => .ok { t with routes := some rt, routesEnd := some rt }

def allocate (rt : Route) : Table :=
  { t with
    mem := update t.mem t.nextRouteId (some rt)
    next := update t.next t.nextRouteId none
    nextRouteId := t.nextRouteId + 1 }

/-- `IPStack_Route_Create`, with what `IPStack_AddRoute` sets after it; prefixes out of range make
it write outside of the network. -/
def routeCreate (n : RouteName) (interface : Option ℕ) (nextHop : Address) :
    Except Halt (Option Table) :=
  let size := getAddressSize n.type
  if size = 0 then .ok none
  else if n.subnetBits < -7 ∨ size * 8 < n.subnetBits then .error .outside
  else
    let rt : Route := ⟨interface, n.type, clearBits size n.subnetBits n.network, n.subnetBits,
      nextHop, n.metric⟩
    (append (allocate t rt) t.nextRouteId).map some

/-- `IPStack_RouteDir_MkNod`; the first result says whether there is a node. -/
def mkNod (name : List UInt8) : Except Halt (Bool × Table) := do
  match ← parseRouteName name with
  | none => return (false, t)
  | some n =>
    match findExactRoute t n with
    | none => .error .endless
    | some (some _) => return (false, t)
    | some none =>
      match ← routeCreate t n none fun _ => 0 with
      | none => .error .null
      | some t' => return (true, { t' with made := t.nextRouteId :: t'.made })

/-- `IPStack_AddRoute`, for a node that was found in the directory of interfaces; one that is no
interface has no `ImplPtr`. -/
def addRoute (node : Option (Option (ℕ × ℤ))) (network : Address) (subnetBits : ℤ)
    (nextHop : Option Address) (metric : ℤ) : Except Halt (Bool × Table) :=
  match node with
  | none => .ok (false, t)
  | some none => .error .null
  | some (some (iface, type)) =>
    (routeCreate t ⟨type, network, subnetBits, metric⟩ (some iface)
      (nextHop.getD fun _ => 0)).map fun r => r.elim (false, t) fun t' => (true, t')

def remove (rt : ℕ) : Except Halt Table :=
  match seek t.next rt (t.nextRouteId + 1) none t.routes with
  | none => .error .endless
  | some none => .error .null
  | some (some prev) =>
    .ok { t with
      next := prev.elim t.next fun p => update t.next p (t.next rt)
      routes := prev.elim (t.next rt) fun _ => t.routes
      mem := update t.mem rt none }

def unlink (name : List UInt8) : Except Halt (Bool × Table) := do
  match ← parseRouteName name with
  | none => return (false, t)
  | some n =>
    match findExactRoute t n with
    | none => .error .endless
    -- `rt->Next` is read from the route that was not found
    | some none => .error .null
    | some (some rt) => (remove t rt).map (true, ·)

end

inductive Op where
  | mkNod (name : List UInt8)
  | addRoute (node : Option (Option (ℕ × ℤ))) (network : Address) (subnetBits : ℤ)
      (nextHop : Option Address) (metric : ℤ)
  | unlink (name : List UInt8)

def exec (t : Table) : Op → Except Halt (Bool × Table)
  | .mkNod name => mkNod t name
  | .addRoute node network bits nextHop metric => addRoute t node network bits nextHop metric
  | .unlink name => unlink t name

def step (t : Table) (op : Op) : Option Table := ((exec t op).map Prod.snd).toOption

def empty : Table := ⟨fun _ => none, fun _ => none, none, none, 1, []⟩

def SameKey (r r' : Route) : Prop :=
  r.addressType = r'.addressType ∧ r.subnetBits = r'.subnetBits ∧ r.metric = r'.metric ∧
    ∀ b < getAddressSize r.addressType, r.network b = r'.network b

/-- The routes of the table are `xs`, and no two of those made by name are alike. -/
structure InOrder (t : Table) (xs : List ℕ) : Prop where
  linked : Linked t.next t.routes xs
  nodup : xs.Nodup
  last : t.routesEnd = xs.getLast?
  live : ∀ a, t.mem a ≠ none ↔ a ∈ xs
  below : ∀ a ∈ xs, a < t.nextRouteId
  distinct : ∀ a ∈ t.made, ∀ b ∈ t.made, ∀ r r', t.mem a = some r → t.mem b = some r' →
    SameKey r r' → a = b
  madeBelow : ∀ a ∈ t.made, a < t.nextRouteId

def InRange (n : RouteName) : Prop :=
  0 ≤ n.subnetBits ∧ n.subnetBits ≤ getAddressSize n.type * 8

/-- Names do not end before their parts do. A route is made with an address of a known type, a
prefix in range and no bits behind it; one that is unlinked is there and not the last. -/
def Guard (t : Table) : Op → Prop
  | .mkNod name => ∃ n, parseRouteName name = .ok n ∧ ∀ n', n = some n' →
      getAddressSize n'.type ≠ 0 ∧ InRange n' ∧ ∀ b < getAddressSize n'.type,
          clearBits (getAddressSize n'.type) n'.subnetBits n'.network b = n'.network b
  | .addRoute node network bits _ metric => node ≠ some none ∧
      ∀ iface type, node = some (some (iface, type)) →
        getAddressSize type ≠ 0 → InRange ⟨type, network, bits, metric⟩
  | .unlink name => ∃ n, parseRouteName name = .ok n ∧ ∀ n', n = some n' →
      ∃ rt, findExactRoute t n' = some (some rt) ∧ t.routesEnd ≠ some rt

variable {t t' : Table} {xs : List ℕ} {n : RouteName} {rt : Route} {a : ℕ}

section

variable (h : InOrder t xs)
include h

theorem InOrder.length_lt : xs.length < t.nextRouteId + 1 := by
  have hsub : xs ⊆ range t.nextRouteId := fun a ha => mem_range.mpr (h.below a ha)
  have hle := (subperm_of_subset h.nodup hsub).length_le
  rw [length_range] at hle
  omega

theorem InOrder.findExactRoute_eq (n : RouteName) : findExactRoute t n = some (xs.find? fun a =>
      (t.mem a).any (isRoute n.type n.network n.subnetBits n.metric)) :=
  walk_eq h.linked h.length_lt

theorem InOrder.fresh : t.nextRouteId ∉ xs := fun hm =>
  lt_irrefl _ (h.below _ hm)

theorem append_spec (rt : Route) : ∃ t', append (allocate t rt) t.nextRouteId = .ok t' ∧
      Linked t'.next t'.routes (xs ++ [t.nextRouteId]) ∧ t'.routesEnd = some t.nextRouteId ∧
      t'.mem = update t.mem t.nextRouteId (some rt) ∧
      t'.nextRouteId = t.nextRouteId + 1 ∧ t'.made = t.made := by
  have hfresh := h.fresh
  have hlinked : Linked (allocate t rt).next t.routes xs := h.linked.congr fun a ha =>
      update_of_ne (fun heq : a = t.nextRouteId => hfresh (heq ▸ ha)) ..
  have hself : (allocate t rt).next t.nextRouteId = none := update_self ..
  rcases eq_nil_or_concat xs with rfl | ⟨ws, e, rfl⟩
  · have hend : (allocate t rt).routesEnd = none := h.last
    refine ⟨{ allocate t rt with routes := some t.nextRouteId, routesEnd := some t.nextRouteId },
      ?_, ⟨rfl, hself⟩, rfl, rfl, rfl, rfl⟩
    simp only [append, hend]
  rw [concat_eq_append] at h hfresh hlinked
  have he : e ≠ t.nextRouteId := fun heq => hfresh (by simp [heq])
  have hend : (allocate t rt).routesEnd = some e := h.last.trans (by simp)
  have hmem : (allocate t rt).mem e ≠ none := by
    have hlive := (h.live e).mpr (by simp)
    simpa [allocate, he] using hlive
  refine ⟨{ allocate t rt with
    next := update (allocate t rt).next e (some t.nextRouteId)
    routesEnd := some t.nextRouteId }, ?_, ?_, rfl, rfl, rfl, rfl⟩
  · simp only [append, hend, if_neg hmem]
  rw [concat_eq_append, append_assoc]
  refine hlinked.splice (update_self ..) ?_ fun z hz => ?_
  · rw [hlinked.next_eq]
    exact (update_of_ne he.symm ..).trans hself
  · refine update_of_ne ?_ ..
    rintro rfl
    rw [append_nil] at hz
    exact (nodup_append.mp h.nodup).2.2 z hz z (mem_singleton_self z) rfl

theorem routeCreate_spec (hrange : InRange n) (hsize : getAddressSize n.type ≠ 0)
    (interface : Option ℕ) (nextHop : Address) :
    ∃ t' rt, routeCreate t n interface nextHop = .ok (some t') ∧
      InOrder t' (xs ++ [t.nextRouteId]) ∧ t'.mem t.nextRouteId = some rt ∧
      (∀ b, b ≠ t.nextRouteId → t'.mem b = t.mem b) ∧ t'.made = t.made ∧
      t'.nextRouteId = t.nextRouteId + 1 ∧
      rt = ⟨interface, n.type, clearBits (getAddressSize n.type) n.subnetBits n.network,
        n.subnetBits, nextHop, n.metric⟩ := by
  have hin : ¬ (n.subnetBits < -7 ∨ getAddressSize n.type * 8 < n.subnetBits) := by
    have h0 := hrange.1
    have h1 := hrange.2
    omega
  obtain ⟨t', happend, hlinked, hlast, hmem, hid, hmade⟩ := append_spec h
    ⟨interface, n.type, clearBits (getAddressSize n.type) n.subnetBits n.network,
      n.subnetBits, nextHop, n.metric⟩
  have hold : ∀ b, b ≠ t.nextRouteId → t'.mem b = t.mem b := fun b hb => by
    rw [hmem, update_of_ne hb]
  have hnew : ∀ b ∈ t.made, b ≠ t.nextRouteId := fun b hb => (h.madeBelow b hb).ne
  refine ⟨t', _, ?_, ⟨hlinked, ?_, ?_, fun a => ?_, fun a ha => ?_, ?_, fun a ha => ?_⟩, ?_, hold,
    hmade, hid, rfl⟩
  · simp only [routeCreate, if_neg hsize, if_neg hin, happend]
    rfl
  · exact nodup_middle.mpr (by simpa using ⟨h.fresh, h.nodup⟩)
  · simp [hlast]
  · by_cases ha : a = t.nextRouteId
    · simp [ha, hmem]
    · simpa [hold a ha, ha] using h.live a
  · rw [hid]
    rcases mem_append.mp ha with ha | ha
    · exact (h.below a ha).trans (Nat.lt_succ_self _)
    · simp_all
  · rw [hmade]
    intro a ha b hb r r' hr hr'
    rw [hold a (hnew a ha)] at hr
    rw [hold b (hnew b hb)] at hr'
    exact h.distinct a ha b hb r r' hr hr'
  · rw [hmade] at ha
    rw [hid]
    exact (h.madeBelow a ha).trans (Nat.lt_succ_self _)
  · rw [hmem, update_self]

end

variable {name : List UInt8}

section

variable (h : InOrder t xs)
include h

theorem mkNod_spec (hguard : Guard t (.mkNod name)) :
    ∃ r t' ys, mkNod t name = .ok (r, t') ∧ InOrder t' ys := by
  obtain ⟨n, hparse, hn⟩ := hguard
  simp only [mkNod, hparse, bind, Except.bind, pure, Except.pure]
  cases n with
  | none => exact ⟨_, _, xs, rfl, h⟩
  | some n =>
    obtain ⟨hsize, hrange, hmasked⟩ := hn n rfl
    simp only [h.findExactRoute_eq]
    cases hfind : xs.find? _ with
    | some _ => exact ⟨_, _, xs, rfl, h⟩
    | none =>
      obtain ⟨t', rt, hcreate, hinv, hrt, hold, hmade, hid, rfl⟩ :=
        routeCreate_spec h hrange hsize none fun _ => 0
      simp only [hcreate]
      refine ⟨_, _, xs ++ [t.nextRouteId], rfl, { hinv with distinct := ?_, madeBelow := ?_ }⟩
      · -- none of the routes that were there is what the new one is
        have hother : ∀ b ∈ t.made, ∀ r, t'.mem b = some r →
            ¬ SameKey r ⟨none, n.type, clearBits (getAddressSize n.type) n.subnetBits n.network,
              n.subnetBits, fun _ => 0, n.metric⟩ := by
          rintro b hb r hr ⟨htype, hbits, hmetric, hnet⟩
          rw [hold b (h.madeBelow b hb).ne] at hr
          have hb : b ∈ xs := (h.live b).mp (by simp [hr])
          have hnone := find?_eq_none.mp hfind b hb
          simp only [hr, any_some, isRoute, Bool.not_eq_true, decide_eq_false_iff_not] at hnone
          refine hnone ⟨htype, hmetric, hbits, compareAddress_all.mpr fun i hi => ?_⟩
          exact (hnet i (htype ▸ hi)).trans (hmasked i hi)
        rw [hmade]
        intro a ha b hb r r' hr hr' hkey
        rcases mem_cons.mp ha with rfl | ha <;> rcases mem_cons.mp hb with rfl | hb
        · rfl
        · cases hrt.symm.trans hr
          obtain ⟨htype, hbits, hmetric, hnet⟩ := hkey
          exact absurd ⟨htype.symm, hbits.symm, hmetric.symm,
            fun i hi => (hnet i (htype ▸ hi)).symm⟩ (hother b hb r' hr')
        · cases hrt.symm.trans hr'
          exact absurd hkey (hother a ha r hr)
        · exact hinv.distinct a (hmade ▸ ha) b (hmade ▸ hb) r r' hr hr' hkey
      · intro a ha
        rcases mem_cons.mp ha with rfl | ha
        · rw [hid]
          exact Nat.lt_succ_self _
        · exact hinv.madeBelow a ha

theorem addRoute_spec {node : Option (Option (ℕ × ℤ))} {network : Address}
    {bits : ℤ} {nextHop : Option Address} {metric : ℤ}
    (hguard : Guard t (.addRoute node network bits nextHop metric)) :
    ∃ r t' ys, addRoute t node network bits nextHop metric = .ok (r, t') ∧ InOrder t' ys := by
  obtain ⟨hnode, hrange⟩ := hguard
  match node with
  | none => exact ⟨_, _, xs, rfl, h⟩
  | some none => exact absurd rfl hnode
  | some (some (iface, type)) =>
    by_cases hsize : getAddressSize type = 0
    · refine ⟨false, t, xs, ?_, h⟩
      simp [addRoute, routeCreate, hsize, Except.map]
    · obtain ⟨t', rt, hcreate, hinv, -⟩ := routeCreate_spec h (hrange iface type rfl hsize) hsize
        (some iface) (nextHop.getD fun _ => 0)
      refine ⟨true, t', _, ?_, hinv⟩
      simp [addRoute, hcreate, Except.map]

theorem remove_spec (ha : a ∈ xs) (hlast : t.routesEnd ≠ some a) :
    ∃ t' ys, remove t a = .ok t' ∧ InOrder t' ys := by
  obtain ⟨ys, zs, rfl⟩ := append_of_mem ha
  have hmid := nodup_middle.mp h.nodup
  have hnot := (nodup_cons.mp hmid).1
  have hzs : zs ≠ [] := by
    rintro rfl
    exact hlast (by simp [h.last])
  have hlen : ys.length < t.nextRouteId + 1 := by
    have hlt := h.length_lt
    simp only [length_append, length_cons] at hlt
    omega
  have hseek : seek t.next a (t.nextRouteId + 1) none t.routes =
      some (some (ys.getLast?.or none)) :=
    seek_found h.linked (fun hm => hnot (mem_append_left _ hm)) hlen
  rw [or_none] at hseek
  have hlive : ∀ b, update t.mem a none b ≠ none ↔ b ∈ ys ++ zs := by
    intro b
    by_cases hb : b = a
    · simpa [hb] using hnot
    · simpa [hb] using h.live b
  have hsub : ∀ b ∈ ys ++ zs, b ∈ ys ++ a :: zs := fun b hb =>
    perm_middle.mem_iff.mpr (mem_cons_of_mem a hb)
  refine ⟨{ t with
    next := ys.getLast?.elim t.next fun p => update t.next p (t.next a)
    routes := ys.getLast?.elim (t.next a) fun _ => t.routes
    mem := update t.mem a none }, ys ++ zs, by simp only [remove, hseek],
      ⟨?_, (nodup_cons.mp hmid).2, ?_, hlive,
    fun b hb => h.below b (hsub b hb), ?_, h.madeBelow⟩⟩
  · rcases eq_nil_or_concat ys with rfl | ⟨ws, w, rfl⟩
    · exact h.linked.rest
    · rw [concat_eq_append] at h hmid ⊢
      have hw : (ws ++ [w]).getLast? = some w := by simp
      have hlinked := h.linked
      simp only [append_assoc, cons_append, nil_append, hw] at hlinked hmid ⊢
      refine hlinked.cut (update_self ..) fun z hz => update_of_ne ?_ ..
      rintro rfl
      exact (nodup_cons.mp (nodup_middle.mp (nodup_cons.mp hmid).2)).1 hz
  · rw [show t.routesEnd = _ from h.last]
    exact getLast?_without hzs
  · intro b hb c hc r r' hr hr'
    have hother : ∀ {d q}, update t.mem a none d = some q → t.mem d = some q := by
      intro d q hq
      by_cases hd : d = a
      · simp [hd] at hq
      · simpa [hd] using hq
    exact h.distinct b hb c hc r r' (hother hr) (hother hr')

theorem unlink_spec (hguard : Guard t (.unlink name)) :
    ∃ r t' ys, unlink t name = .ok (r, t') ∧ InOrder t' ys := by
  obtain ⟨n, hparse, hn⟩ := hguard
  simp only [unlink, hparse, bind, Except.bind, pure, Except.pure]
  cases n with
  | none => exact ⟨_, _, xs, rfl, h⟩
  | some n =>
    obtain ⟨rt, hrt, hlast⟩ := hn n rfl
    have hfind := hrt
    rw [h.findExactRoute_eq] at hfind
    obtain ⟨t', ys, hremove, hinv⟩ := remove_spec h (mem_of_find?_eq_some (some.inj hfind)) hlast
    refine ⟨true, t', ys, ?_, hinv⟩
    simp [hrt, hremove, Except.map]

theorem exec_spec {op : Op} (hguard : Guard t op) :
    ∃ r t' ys, exec t op = .ok (r, t') ∧ InOrder t' ys := by
  cases op with
  | mkNod name => exact mkNod_spec h hguard
  | addRoute node network bits nextHop metric => exact addRoute_spec h hguard
  | unlink name => exact unlink_spec h hguard

omit h in
def Denotes (name : List UInt8) (r : Route) : Prop :=
  ∃ n, parseRouteName name = .ok (some n) ∧ isRoute n.type n.network n.subnetBits n.metric r = true

theorem unlink_unknown (hguard : Guard t (.unlink name))
    (hno : ∀ a r, t.mem a = some r → ¬ Denotes name r) :
    exec t (.unlink name) = .ok (false, t) := by
  obtain ⟨n, hparse, hn⟩ := hguard
  cases n with
  | none => simp [exec, unlink, hparse, bind, Except.bind, pure, Except.pure]
  | some n =>
    obtain ⟨rt, hrt, -⟩ := hn n rfl
    rw [h.findExactRoute_eq] at hrt
    have hany := List.find?_some (Option.some.inj hrt)
    obtain ⟨r, hr, hroute⟩ := (Option.any_eq_true ..).mp hany
    exact absurd ⟨n, hparse, hroute⟩ (hno rt r hr)

end

theorem routes_in_order (ops : List Op) (hguard : Along step Guard empty ops) :
    ∃ t, run step empty ops = some t ∧ (∃ xs, InOrder t xs) ∧
      ∀ name, Guard t (.unlink name) → (∀ a r, t.mem a = some r → ¬ Denotes name r) →
        exec t (.unlink name) = .ok (false, t) := by
  have hstep : ∀ t op, (∃ xs, InOrder t xs) → Guard t op →
      ∃ t', step t op = some t' ∧ ∃ xs, InOrder t' xs := by
    rintro t op ⟨xs, h⟩ hop
    obtain ⟨r, t', ys, hexec, hinv⟩ := exec_spec h hop
    exact ⟨t', by simp [step, hexec, Except.map, Except.toOption], ys, hinv⟩
  have hempty : InOrder empty [] := by
    constructor <;> simp [empty, Linked]
  obtain ⟨t, hrun, xs, hinv⟩ := run_total hstep ⟨[], hempty⟩ hguard
  exact ⟨t, hrun, ⟨xs, hinv⟩, fun name hname hno => unlink_unknown hinv hname hno⟩

/-- `4:0a00000d:8:30`, with the last digit of the address to be given -/
def network10 (digit : UInt8) : List UInt8 :=
  [52, 58, 48, 97, 48, 48, 48, 48, 48, digit, 58, 56, 58, 51, 48]

def twoRoutes : List Op :=
  [.mkNod (network10 48), .addRoute (some (some (0, 4))) (fun _ => 0) 0 none 20,
    .unlink (network10 48)]

theorem twoRoutes_guard : Along step Guard empty twoRoutes := by
  refine ⟨⟨some _, rfl, fun n hn => ?_⟩, fun t ht => ⟨⟨by simp, fun i ty h _ => ?_⟩,
    fun t' ht' => ⟨⟨some _, rfl, fun n hn => ?_⟩, fun _ _ => trivial⟩⟩⟩
  · cases hn
    refine ⟨by decide, by unfold InRange; decide, by decide⟩
  · obtain ⟨rfl, rfl⟩ : 0 = i ∧ 4 = ty := by simpa using h
    unfold InRange
    decide
  · cases hn
    cases ht
    cases ht'
    exact ⟨1, rfl, by decide⟩

theorem twoRoutes_in_order : Along step Guard empty twoRoutes ∧
      ∃ t, run step empty twoRoutes = some t ∧ (∃ xs, InOrder t xs) ∧
        ∀ name, Guard t (.unlink name) → (∀ a r, t.mem a = some r → ¬ Denotes name r) →
          exec t (.unlink name) = .ok (false, t) :=
  ⟨twoRoutes_guard, routes_in_order twoRoutes twoRoutes_guard⟩

/-- Unlinking the only route leaves the end of the list at it, one that is not there a null pointer
is read, and 10.0.0.1/8 is a second 10.0.0.0/8. -/
theorem routes_broken :
    ((run step empty [.mkNod (network10 48), .unlink (network10 48)]).any fun t =>
      t.routes = none ∧ t.routesEnd = some 1) = true ∧
    exec empty (.unlink (network10 48)) = .error .null ∧
    ((run step empty [.mkNod (network10 48), .mkNod (network10 49)]).any
      fun t => (t.mem 1).any fun r => (t.mem 2).any fun r' =>
        isRoute r.addressType r.network r.subnetBits r.metric r') = true := by
  exact ⟨by decide +kernel, by rfl, by decide +kernel⟩

end RouteTable
