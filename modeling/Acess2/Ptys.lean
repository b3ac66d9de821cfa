import Mathlib.Data.List.Basic
import Acess2.GuardedRuns
import Acess2.MachineWords
import Acess2.SortedLists
import Acess2.Strtoi

/-! The registry of pseudo terminals (`drv/pty.c`): a list in the order of the numbers, and one in
the order of the names. A name that ends with `#` gets the first number that the walk over the
names leaves free; its terminal is on the list of names, but is looked for on the other one when it
is closed. -/
namespace Ptys

open Function GuardedRuns Libc List MachineWords Option SortedLists Strtoi

/-- Whether a `char` has a sign, and the bits of a `long` -/
structure Machine where
  signedChar : Bool
  longWidth : ℕ
  wide : 32 ≤ longWidth

structure Pty where
  addr : ℕ
  name : List UInt8
  numericName : ℤ
  deriving DecidableEq

structure Server where
  pty : Pty
  referenceCount : ℤ
  handles : ℕ

structure System where
  numPtys : List Pty
  namedPtys : List Pty
  numCount : ℤ
  namedCount : ℤ
  servers : ℕ → Option Server

/-- Where a walk stops: the number, and the list before and after `*prev_np` -/
structure Slot where
  idx : ℕ
  before : List Pty
  after : List Pty

def Slot.pass (p : Pty) (slot : Slot) : Slot := { slot with before := p :: slot.before }

def next (idx : ℕ) (walk : ℕ → Option Slot) : Option Slot :=
  if idx + 1 < 2 ^ 31 then walk (idx + 1) else none

def numSlot : ℕ → List Pty → Option Slot
  | idx, [] => some ⟨idx, [], []⟩
  | idx, p :: ptys =>
    if p.numericName > idx then some ⟨idx, [], p :: ptys⟩
    else (next idx fun idx => numSlot idx ptys).map (Slot.pass p)

variable (m : Machine)

/-- The first number that is free behind the first `namelen` characters of the name -/
def sequencedSlot (name : List UInt8) (namelen : ℕ) : ℕ → List Pty → Option Slot
  | idx, [] => some ⟨idx, [], []⟩
  | idx, p :: ptys =>
    let cmp := strncmp m.signedChar p.name name namelen
    if cmp < 0 then (sequencedSlot name namelen idx ptys).map (Slot.pass p)
    else if cmp > 0 then some ⟨idx, [], p :: ptys⟩
    else if p.name.drop namelen = [] then (sequencedSlot name namelen idx ptys).map (Slot.pass p)
    else
      let (thisIdx, nameEnd) := strtol kernelCtype m.longWidth (p.name.drop namelen) 10
      if nameEnd ≠ [] then (sequencedSlot name namelen idx ptys).map (Slot.pass p)
      else if toInt thisIdx > idx then some ⟨idx, [], p :: ptys⟩
      else (next idx fun idx => sequencedSlot name namelen idx ptys).map (Slot.pass p)

/-- The place of a name, `none` if it is there already -/
def namedSlot (name : List UInt8) : List Pty → Option (List Pty × List Pty)
  | [] => some ([], [])
  | p :: ptys =>
    let cmp := strcmp m.signedChar p.name name
    if cmp < 0 then (namedSlot name ptys).map fun (before, after) => (p :: before, after)
    else if cmp = 0 then none
    else some ([], p :: ptys)

/-- The server's node gets the terminal as its `ImplPtr`, with one handle and no reference. -/
def System.serve (s : System) (p : Pty) : System :=
  { s with servers := update s.servers p.addr (some ⟨p, 0, 1⟩) }

def System.addNum (s : System) (p : Pty) (before after : List Pty) : System :=
  { s.serve p with numPtys := before ++ p :: after, numCount := s.numCount + 1 }

def System.addNamed (s : System) (p : Pty) (before after : List Pty) : System :=
  { s.serve p with namedPtys := before ++ p :: after, namedCount := s.namedCount + 1 }

/-- What `%.*s%u` prints for a name that ends with `#` -/
def sequencedName (name : List UInt8) (idx : ℕ) : List UInt8 := name.dropLast ++ decimal idx

/-- `PTY_Create`: `none` as the terminal for `EINVAL` and `EEXIST` -/
def ptyCreate (s : System) (name : CStr) (addr : ℕ) : Option (Option Pty × System) :=
  if name.val = [] then
    (numSlot 1 s.numPtys).map fun slot =>
      let p := ⟨addr, decimal slot.idx, slot.idx⟩
      (some p, s.addNum p slot.before slot.after)
  else if name.val.getLast? = some 35 then
    (sequencedSlot m name.val (name.val.length - 1) 0 s.namedPtys).map fun slot =>
      let p := ⟨addr, sequencedName name.val slot.idx, slot.idx⟩
      (some p, s.addNamed p slot.before slot.after)
  else if (strtol kernelCtype m.longWidth name.val 10).1 ≠ 0 ∧
      (strtol kernelCtype m.longWidth name.val 10).2 = [] then
    some (none, s)
  else
    match namedSlot m name.val s.namedPtys with
    | none => some (none, s)
    | some (before, after) =>
      let p := ⟨addr, name.val, -1⟩
      some (some p, s.addNamed p before after)

inductive Found where
  | nothing
  | server
  | pty (addr : ℕ)
  deriving DecidableEq

def findNum (num : ℤ) : List Pty → Found
  | [] => .nothing
  | p :: ptys =>
    if p.numericName > num then .nothing
    else if p.numericName = num then .pty p.addr
    else findNum num ptys

variable (name : List UInt8)

def findNamed : List Pty → Found
  | [] => .nothing
  | p :: ptys =>
    let cmp := strcmp m.signedChar p.name name
    if cmp > 0 then .nothing
    else if cmp = 0 then .pty p.addr
    else findNamed ptys

def numOf : ℤ := toInt (strtol kernelCtype m.longWidth name 10).1

def IsNum : Prop :=
  numOf m name ≠ 0 ∧ (strtol kernelCtype m.longWidth name 10).2 = []

instance : Decidable (IsNum m name) := inferInstanceAs (Decidable (_ ∧ _))

def ptmx : List UInt8 := [112, 116, 109, 120]

def ptyFindDir (s : System) (name : CStr) : Found :=
  if strcmp m.signedChar name.val ptmx = 0 then .server
  else if name.val = [] then .nothing
  else if IsNum m name.val then findNum (numOf m name.val) s.numPtys
  else findNamed m name.val s.namedPtys

def remove (p : Pty) (ptys : List Pty) : List Pty := ptys.eraseP fun q => q.addr = p.addr

def Server.closeOne (sv : Server) : Option Server :=
  if sv.handles ≤ 1 then none else some ⟨sv.pty, sv.referenceCount - 1, sv.handles - 1⟩

def ptyCloseServer (s : System) (addr : ℕ) : Option System :=
  (s.servers addr).map fun sv =>
    let servers := update s.servers addr sv.closeOne
    if sv.referenceCount - 1 > 0 then { s with servers }
    else if sv.pty.numericName = -1 then
      { s with servers, namedPtys := remove sv.pty s.namedPtys, namedCount := s.namedCount - 1 }
    else { s with servers, numPtys := remove sv.pty s.numPtys, numCount := s.numCount - 1 }

/-- `_ReferenceNode` for a node type without `Reference`: one more handle of a server -/
def referenceNode (s : System) (addr : ℕ) : Option System :=
  (s.servers addr).map fun sv =>
    let sv' := ⟨sv.pty, sv.referenceCount + 1, sv.handles + 1⟩
    { s with servers := update s.servers addr (some sv') }

inductive Op where
  | create (name : CStr) (addr : ℕ)
  | reference (addr : ℕ)
  | close (addr : ℕ)

def step (s : System) : Op → Option System
  | .create name addr => (ptyCreate m s name addr).map (·.2)
  | .reference addr => referenceNode s addr
  | .close addr => ptyCloseServer s addr

def booted : System := ⟨[], [], 0, 0, fun _ => none⟩

variable (s : System)

def allowed : Op → Prop
  | .create _ addr => s.servers addr = none
  | .reference addr => (s.servers addr).isSome
  | .close addr => (s.servers addr).isSome

instance decidableAllowed : DecidablePred (allowed s) := fun c => by
  cases c <;> dsimp only [allowed] <;> infer_instance

def Spelled (name : List UInt8) : Prop :=
  IsNum m name → 0 < numOf m name → name = decimal (numOf m name).toNat

structure Sound : Prop where
  counts : s.numCount = s.numPtys.length ∧ s.namedCount = s.namedPtys.length
  /-- the lists have the terminals whose server has a handle -/
  listed : ∀ p, p ∈ s.numPtys ∨ p ∈ s.namedPtys ↔ ∃ sv, s.servers p.addr = some sv ∧ sv.pty = p
  distinct : ∀ addr addr' sv sv', s.servers addr = some sv → s.servers addr' = some sv' →
    sv.pty.name = sv'.pty.name → addr = addr'
  /-- each is found by its name -/
  found : ∀ addr sv (name : CStr), s.servers addr = some sv → sv.pty.name = name.val →
    ptyFindDir m s name = .pty addr
  /-- and no other name finds any -/
  named : ∀ (name : CStr) addr, Spelled m name.val → ptyFindDir m s name = .pty addr →
    ∃ sv, s.servers addr = some sv ∧ sv.pty.name = name.val

/-- A number that is left; a sequenced name in its place; no name that `PTY_FindDir` keeps for
itself; and a last handle, of a terminal on the list of its `NumericName` -/
def guard : Op → Prop
  | .create name _ =>
    if name.val = [] then ∃ n : ℕ, 0 < n ∧ n < 2 ^ 31 ∧ ∀ p ∈ s.numPtys, p.numericName ≠ n
    else if name.val.getLast? = some 35 then
      ∃ slot, sequencedSlot m name.val (name.val.length - 1) 0 s.namedPtys = some slot ∧
        ¬ IsNum m (sequencedName name.val slot.idx) ∧
        (∀ p ∈ slot.before, strcmp m.signedChar p.name (sequencedName name.val slot.idx) < 0) ∧
        ∀ p ∈ slot.after, 0 < strcmp m.signedChar p.name (sequencedName name.val slot.idx)
    else name.val ≠ ptmx
  | .reference _ => True
  | .close addr => ∀ sv, s.servers addr = some sv →
      sv.handles ≠ 2 ∧ (sv.handles = 1 → sv.pty.numericName = -1 ∨ sv.pty ∈ s.numPtys)

variable {m} {ptys : List Pty} {p : Pty} {slot : Slot} {idx : ℕ} {name} {addr : ℕ}

theorem next_eq_some {walk : ℕ → Option Slot} (h : next idx walk = some slot) :
    idx + 1 < 2 ^ 31 ∧ walk (idx + 1) = some slot := by
  rw [next] at h
  split_ifs at h with hlt
  exact ⟨hlt, h⟩

theorem number_of_head (hsorted : Sorted Pty.numericName (p :: ptys))
    (hle : ∀ q ∈ p :: ptys, (idx : ℤ) ≤ q.numericName) (hsmall : ¬ p.numericName > idx) :
    p.numericName = idx ∧ ∀ q ∈ ptys, ((idx + 1 : ℕ) : ℤ) ≤ q.numericName := by
  have hp : p.numericName = idx := le_antisymm (not_lt.mp hsmall) (hle p (by simp))
  refine ⟨hp, fun q hq => ?_⟩
  have hlt := (pairwise_cons.mp hsorted).1 q hq
  omega

theorem numSlot_spec (h : numSlot idx ptys = some slot) (hidx : idx < 2 ^ 31)
    (hsorted : Sorted Pty.numericName ptys) (hle : ∀ p ∈ ptys, (idx : ℤ) ≤ p.numericName) :
    slot.before ++ slot.after = ptys ∧ idx ≤ slot.idx ∧ slot.idx < 2 ^ 31 ∧
      (∀ p ∈ slot.before, p.numericName < slot.idx) ∧
      ∀ p ∈ slot.after, (slot.idx : ℤ) < p.numericName := by
  induction ptys generalizing idx slot with
  | nil =>
    cases h
    exact ⟨rfl, Nat.le_refl _, hidx, by simp, by simp⟩
  | cons p ptys ih =>
    obtain ⟨hp, hrest⟩ := pairwise_cons.mp hsorted
    rw [numSlot] at h
    split_ifs at h with hlarge
    · cases h
      exact ⟨rfl, Nat.le_refl _, hidx, by simp,
        forall_mem_cons.mpr ⟨hlarge, fun q hq => hlarge.trans (hp q hq)⟩⟩
    obtain ⟨slot', hnext, rfl⟩ := map_eq_some_iff.mp h
    obtain ⟨hlt, hwalk⟩ := next_eq_some hnext
    obtain ⟨hidx', hle'⟩ := number_of_head hsorted hle hlarge
    obtain ⟨hcut, hmin, hmax, hbefore, hafter⟩ := ih hwalk hlt hrest hle'
    refine ⟨by rw [Slot.pass, cons_append, hcut], ?_, hmax, ?_, hafter⟩
    · exact Nat.le_of_succ_le hmin
    · intro q hq
      rcases mem_cons.mp hq with rfl | hq
      · rw [hidx']
        exact Int.ofNat_lt.mpr hmin
      · exact hbefore q hq

theorem numSlot_some {n : ℕ} (hn : idx ≤ n) (hmax : n < 2 ^ 31)
    (hle : ∀ p ∈ ptys, (idx : ℤ) ≤ p.numericName) (hsorted : Sorted Pty.numericName ptys)
    (hfree : ∀ p ∈ ptys, p.numericName ≠ n) : ∃ slot, numSlot idx ptys = some slot := by
  induction ptys generalizing idx with
  | nil => exact ⟨_, rfl⟩
  | cons p ptys ih =>
    rw [numSlot]
    split_ifs with hlarge
    · exact ⟨_, rfl⟩
    obtain ⟨hidx, hle'⟩ := number_of_head hsorted hle hlarge
    have hne := hfree p (by simp)
    obtain ⟨slot, hwalk⟩ := ih (by omega) hle' (pairwise_cons.mp hsorted).2 fun q hq =>
      hfree q (by simp [hq])
    rw [next, if_pos (by omega), hwalk]
    exact ⟨_, rfl⟩

theorem sequencedSlot_cut {namelen : ℕ} (h : sequencedSlot m name namelen idx ptys = some slot)
    (hidx : idx < 2 ^ 31) : slot.before ++ slot.after = ptys ∧ slot.idx < 2 ^ 31 := by
  induction ptys generalizing idx slot with
  | nil =>
    cases h
    exact ⟨rfl, hidx⟩
  | cons p ptys ih =>
    have hpass {walk : Option Slot} (hwalk : ∀ slot', walk = some slot' →
        slot'.before ++ slot'.after = ptys ∧ slot'.idx < 2 ^ 31)
        (heq : walk.map (Slot.pass p) = some slot) :
        slot.before ++ slot.after = p :: ptys ∧ slot.idx < 2 ^ 31 := by
      obtain ⟨slot', hslot', rfl⟩ := map_eq_some_iff.mp heq
      obtain ⟨hcut, hmax⟩ := hwalk slot' hslot'
      exact ⟨by rw [Slot.pass, cons_append, hcut], hmax⟩
    rw [sequencedSlot] at h
    dsimp only at h
    split_ifs at h
    · exact hpass (fun _ hwalk => ih hwalk hidx) h
    · cases h
      exact ⟨rfl, hidx⟩
    · exact hpass (fun _ hwalk => ih hwalk hidx) h
    · exact hpass (fun _ hwalk => ih hwalk hidx) h
    · cases h
      exact ⟨rfl, hidx⟩
    · refine hpass (fun _ hnext => ?_) h
      obtain ⟨hlt, hwalk⟩ := next_eq_some hnext
      exact ih hwalk hlt

def nameKey (m : Machine) (p : Pty) : Lex (ℕ → ℤ) := padded m.signedChar p.name

theorem namedSlot_spec {before after : List Pty} (h : namedSlot m name ptys = some (before, after))
    (hsorted : Sorted (nameKey m) ptys) (hname : 0 ∉ name) (hclean : ∀ p ∈ ptys, 0 ∉ p.name) :
    before ++ after = ptys ∧ (∀ p ∈ before, strcmp m.signedChar p.name name < 0) ∧
      ∀ p ∈ after, 0 < strcmp m.signedChar p.name name := by
  induction ptys generalizing before after with
  | nil =>
    cases h
    exact ⟨rfl, by simp, by simp⟩
  | cons p ptys ih =>
    obtain ⟨hp, hrest⟩ := pairwise_cons.mp hsorted
    rw [namedSlot] at h
    split_ifs at h with hlt heq
    · obtain ⟨⟨before', after'⟩, hwalk, heq⟩ := map_eq_some_iff.mp h
      cases heq
      obtain ⟨hcut, hbefore, hafter⟩ := ih hwalk hrest fun q hq => hclean q (by simp [hq])
      exact ⟨by rw [cons_append, hcut], forall_mem_cons.mpr ⟨hlt, hbefore⟩, hafter⟩
    cases h
    have hpos : 0 < strcmp m.signedChar p.name name := by omega
    refine ⟨rfl, by simp, fun q hq => ?_⟩
    rcases mem_cons.mp hq with rfl | hq'
    · exact hpos
    · apply (strcmp_pos_iff (hclean q hq) hname).mpr
      have hkey := (strcmp_pos_iff (hclean p (by simp)) hname).mp hpos
      exact hkey.trans (hp q hq')

theorem namedSlot_none (h : namedSlot m name ptys = none) (hname : 0 ∉ name)
    (hclean : ∀ p ∈ ptys, 0 ∉ p.name) : ∃ p ∈ ptys, p.name = name := by
  induction ptys with
  | nil => cases h
  | cons p ptys ih =>
    rw [namedSlot] at h
    split_ifs at h with hlt heq
    · obtain ⟨q, hq, heq⟩ := ih (map_eq_none_iff.mp h) fun q hq => hclean q (by simp [hq])
      exact ⟨q, by simp [hq], heq⟩
    · exact ⟨p, by simp, (strcmp_eq_zero_iff (hclean p (by simp)) hname).mp heq⟩

variable {as bs : List Pty} {num : ℤ}

theorem findNum_mem (h : findNum num ptys = .pty addr) :
    ∃ p ∈ ptys, p.addr = addr ∧ p.numericName = num := by
  induction ptys with
  | nil => cases h
  | cons p ptys ih =>
    rw [findNum] at h
    split_ifs at h with hlarge heq
    · exact ⟨p, by simp, Found.pty.inj h, heq⟩
    · obtain ⟨q, hq, hfound⟩ := ih h
      exact ⟨q, by simp [hq], hfound⟩

theorem findNum_found (hsorted : Sorted Pty.numericName ptys) (hp : p ∈ ptys) :
    findNum p.numericName ptys = .pty p.addr := by
  induction ptys with
  | nil => cases hp
  | cons q ptys ih =>
    obtain ⟨hq, hrest⟩ := pairwise_cons.mp hsorted
    rw [findNum]
    rcases mem_cons.mp hp with rfl | hp
    · rw [if_neg (lt_irrefl _), if_pos rfl]
    · have hlt := hq p hp
      rw [if_neg (by omega), if_neg (by omega)]
      exact ih hrest hp

theorem findNamed_mem (h : findNamed m name ptys = .pty addr) (hname : 0 ∉ name)
    (hclean : ∀ p ∈ ptys, 0 ∉ p.name) : ∃ p ∈ ptys, p.addr = addr ∧ p.name = name := by
  induction ptys with
  | nil => cases h
  | cons p ptys ih =>
    rw [findNamed] at h
    split_ifs at h with hlarge heq
    · refine ⟨p, by simp, Found.pty.inj h, ?_⟩
      exact (strcmp_eq_zero_iff (hclean p (by simp)) hname).mp heq
    · obtain ⟨q, hq, hfound⟩ := ih h fun q hq => hclean q (by simp [hq])
      exact ⟨q, by simp [hq], hfound⟩

theorem findNamed_found (hsorted : Sorted (nameKey m) ptys) (hclean : ∀ p ∈ ptys, 0 ∉ p.name)
    (hp : p ∈ ptys) : findNamed m p.name ptys = .pty p.addr := by
  induction ptys with
  | nil => cases hp
  | cons q ptys ih =>
    obtain ⟨hq, hrest⟩ := pairwise_cons.mp hsorted
    rw [findNamed]
    rcases mem_cons.mp hp with rfl | hp'
    · have hzero : strcmp m.signedChar p.name p.name = 0 :=
        (strcmp_eq_zero_iff (hclean p hp) (hclean p hp)).mpr rfl
      simp [hzero]
    · have hneg : strcmp m.signedChar q.name p.name < 0 :=
        (strcmp_neg_iff (hclean q (by simp)) (hclean p hp)).mpr (hq p hp')
      rw [if_neg (by omega), if_neg (by omega)]
      exact ih hrest (fun r hr => hclean r (by simp [hr])) hp'

theorem findNamed_passed (h : findNamed m name (as ++ bs) = .pty addr)
    (hother : ∀ q ∈ as, q.addr ≠ addr) : ∀ q ∈ as, strcmp m.signedChar q.name name < 0 := by
  induction as with
  | nil => simp
  | cons p as ih =>
    rw [cons_append, findNamed] at h
    split_ifs at h with hlarge heq
    · exact absurd (Found.pty.inj h) (hother p (by simp))
    · intro q hq
      rcases mem_cons.mp hq with rfl | hq
      · omega
      · exact ih h (fun r hr => hother r (by simp [hr])) q hq

variable {s} {t : System} {n : ℕ} {q : Pty}

theorem isNum_decimal (hpos : 0 < n) (hn : n < 2 ^ 31) :
    IsNum m (decimal n) ∧ numOf m (decimal n) = n := by
  have hnum : numOf m (decimal n) = n := by
    rw [numOf, strtol_decimal m.wide hn, toInt_of_lt hn]
  refine ⟨⟨?_, ?_⟩, hnum⟩
  · omega
  · rw [strtol_decimal m.wide hn]

theorem not_isNum_nil : ¬ IsNum m [] := by
  rintro ⟨hne, -⟩
  apply hne
  rw [numOf, strtol_eq_zero rfl]
  rfl

theorem strtol_ptmx : (strtol kernelCtype m.longWidth ptmx 10).2 ≠ [] := by
  simp [strtol, strtoll, strtoull, strtoullLoop, kernelCtype, ptmx, digitOf]

theorem not_isNum_ptmx : ¬ IsNum m ptmx := fun h => strtol_ptmx h.2

theorem zero_notMem_decimal (hn : n < 2 ^ 31) : 0 ∉ decimal n := by
  intro hzero
  have hdigit := (decimal_digit (by omega) 0 hzero).1
  simp at hdigit

structure Inv (m : Machine) (s : System) : Prop where
  counts : s.numCount = s.numPtys.length ∧ s.namedCount = s.namedPtys.length
  listed : ∀ p, p ∈ s.numPtys ∨ p ∈ s.namedPtys ↔ ∃ sv, s.servers p.addr = some sv ∧ sv.pty = p
  servers : ∀ addr sv, s.servers addr = some sv →
    sv.pty.addr = addr ∧ sv.referenceCount + 1 = sv.handles ∧ 1 ≤ sv.handles
  numSorted : Sorted Pty.numericName s.numPtys
  namedSorted : Sorted (nameKey m) s.namedPtys
  nums : ∀ p ∈ s.numPtys, ∃ n : ℕ, 0 < n ∧ n < 2 ^ 31 ∧ p.numericName = n ∧ p.name = decimal n
  names : ∀ p ∈ s.namedPtys, 0 ∉ p.name ∧ p.name ≠ [] ∧ p.name ≠ ptmx ∧ ¬ IsNum m p.name

theorem inv_booted : Inv m booted := by
  constructor
  case counts => exact ⟨rfl, rfl⟩
  case listed => simp [booted]
  case servers => simp [booted]
  case numSorted => exact List.Pairwise.nil
  case namedSorted => exact List.Pairwise.nil
  case nums => simp [booted]
  case names => simp [booted]

section

variable (h : Inv m s)
include h

theorem Inv.clean : ∀ p ∈ s.namedPtys, 0 ∉ p.name := fun p hp => (h.names p hp).1

theorem Inv.zero_notMem (hp : p ∈ s.numPtys ∨ p ∈ s.namedPtys) : 0 ∉ p.name := by
  rcases hp with hp | hp
  · obtain ⟨n, -, hn, -, hname⟩ := h.nums p hp
    rw [hname]
    exact zero_notMem_decimal hn
  · exact h.clean p hp

theorem Inv.eq_of_addr (hp : p ∈ s.numPtys ∨ p ∈ s.namedPtys)
    (hq : q ∈ s.numPtys ∨ q ∈ s.namedPtys) (haddr : p.addr = q.addr) : p = q := by
  obtain ⟨sv, hsv, rfl⟩ := (h.listed p).mp hp
  obtain ⟨sv', hsv', rfl⟩ := (h.listed q).mp hq
  rw [haddr, hsv'] at hsv
  rw [some.inj hsv]

theorem Inv.live {sv : Server} (hsv : s.servers addr = some sv) :
    sv.pty ∈ s.numPtys ∨ sv.pty ∈ s.namedPtys := by
  apply (h.listed sv.pty).mpr
  rw [(h.servers addr sv hsv).1]
  exact ⟨sv, hsv, rfl⟩

theorem Inv.one_le : ∀ p ∈ s.numPtys, ((1 : ℕ) : ℤ) ≤ p.numericName := by
  intro p hp
  obtain ⟨n, hpos, -, hn, -⟩ := h.nums p hp
  omega

theorem Inv.addr_ne (hfree : s.servers p.addr = none)
    (hq : q ∈ s.numPtys ∨ q ∈ s.namedPtys) : q.addr ≠ p.addr := by
  intro haddr
  obtain ⟨sv, hsv, -⟩ := (h.listed q).mp hq
  rw [haddr, hfree] at hsv
  cases hsv

theorem Inv.servers_update {o : Option Server} (ho : ∀ sv ∈ o,
      sv.pty.addr = addr ∧ sv.referenceCount + 1 = sv.handles ∧ 1 ≤ sv.handles) :
    ∀ addr' sv, update s.servers addr o addr' = some sv →
      sv.pty.addr = addr' ∧ sv.referenceCount + 1 = sv.handles ∧ 1 ≤ sv.handles := by
  intro addr' sv hsv
  by_cases haddr : addr' = addr
  · rw [haddr, update_self] at hsv
    exact haddr ▸ ho sv hsv
  · exact h.servers addr' sv (by rwa [update_of_ne haddr] at hsv)

theorem Inv.isNum (hp : p ∈ s.numPtys) : IsNum m p.name ∧ numOf m p.name = p.numericName := by
  obtain ⟨n, hpos, hn, hnum, hname⟩ := h.nums p hp
  rw [hname, hnum]
  exact isNum_decimal hpos hn

end

theorem find_named (name : CStr) (hne : name.val ≠ []) (hptmx : name.val ≠ ptmx)
    (hnum : ¬ IsNum m name.val) :
    ptyFindDir m s name = findNamed m name.val s.namedPtys := by
  have hcmp : strcmp m.signedChar name.val ptmx ≠ 0 := fun h =>
    hptmx ((strcmp_eq_zero_iff name.property (by decide)).mp h)
  rw [ptyFindDir, if_neg hcmp, if_neg hne, if_neg hnum]

theorem find_num (name : CStr) (hnum : IsNum m name.val) :
    ptyFindDir m s name = findNum (numOf m name.val) s.numPtys := by
  have hptmx : strcmp m.signedChar name.val ptmx ≠ 0 := fun h =>
    not_isNum_ptmx ((strcmp_eq_zero_iff name.property (by decide)).mp h ▸ hnum)
  have hne : name.val ≠ [] := fun h => not_isNum_nil (h ▸ hnum)
  rw [ptyFindDir, if_neg hptmx, if_neg hne, if_pos hnum]

theorem Inv.found (h : Inv m s) (hp : p ∈ s.numPtys ∨ p ∈ s.namedPtys) {name : CStr}
    (hname : p.name = name.val) : ptyFindDir m s name = .pty p.addr := by
  rcases hp with hp | hp
  · obtain ⟨hnum, heq⟩ := h.isNum hp
    rw [find_num name (hname ▸ hnum), ← hname, heq]
    exact findNum_found h.numSorted hp
  · obtain ⟨-, hne, hptmx, hnum⟩ := h.names p hp
    rw [find_named name (hname ▸ hne) (hname ▸ hptmx) (hname ▸ hnum), ← hname]
    exact findNamed_found h.namedSorted h.clean hp

theorem Inv.sound (h : Inv m s) : Sound m s := by
  constructor
  case counts => exact h.counts
  case listed => exact h.listed
  case distinct =>
    intro addr addr' sv sv' hsv hsv' hname
    obtain ⟨haddr, -⟩ := h.servers addr sv hsv
    obtain ⟨haddr', -⟩ := h.servers addr' sv' hsv'
    -- both are what the search for the name finds
    have hfind := h.found (h.live hsv) (Eq.refl (⟨_, h.zero_notMem (h.live hsv)⟩ : CStr).val)
    rw [h.found (h.live hsv') hname.symm, haddr, haddr'] at hfind
    exact (Found.pty.inj hfind).symm
  case found =>
    intro addr sv name hsv hname
    rw [h.found (h.live hsv) hname, (h.servers addr sv hsv).1]
  case named =>
    intro name addr hspelled hfind
    have hmem : ∃ p, (p ∈ s.numPtys ∨ p ∈ s.namedPtys) ∧ p.addr = addr ∧ p.name = name.val := by
      rw [ptyFindDir] at hfind
      split_ifs at hfind with hptmx hnil hnum
      · obtain ⟨p, hp, haddr, hpnum⟩ := findNum_mem hfind
        obtain ⟨n, hpos, -, hn, hname⟩ := h.nums p hp
        refine ⟨p, .inl hp, haddr, ?_⟩
        rw [hname, hspelled hnum (by omega)]
        congr 1
        omega
      · obtain ⟨p, hp, hfound⟩ := findNamed_mem hfind name.property h.clean
        exact ⟨p, .inr hp, hfound⟩
    obtain ⟨p, hp, rfl, hname⟩ := hmem
    obtain ⟨sv, hsv, rfl⟩ := (h.listed p).mp hp
    exact ⟨sv, hsv, hname⟩

variable {before after : List Pty} {name : CStr}

section

variable (h : Inv m s) (hfree : s.servers p.addr = none)
include h hfree

theorem listed_serve (q : Pty) : (q = p ∨ q ∈ s.numPtys ∨ q ∈ s.namedPtys) ↔
      ∃ sv, (s.serve p).servers q.addr = some sv ∧ sv.pty = q := by
  rw [h.listed q]
  by_cases haddr : q.addr = p.addr
  · rw [haddr, hfree]
    simp [System.serve, eq_comm]
  · have hne : q ≠ p := fun heq => haddr (by rw [heq])
    simp [System.serve, haddr, hne]

theorem inv_addNum
    (hcut : before ++ after = s.numPtys) (hbefore : ∀ q ∈ before, q.numericName < p.numericName)
    (hafter : ∀ q ∈ after, p.numericName < q.numericName)
    (hp : ∃ n : ℕ, 0 < n ∧ n < 2 ^ 31 ∧ p.numericName = n ∧ p.name = decimal n) :
    Inv m (s.addNum p before after) := by
  have hmem (q : Pty) : q ∈ before ++ p :: after ↔ q = p ∨ q ∈ s.numPtys := by
    rw [← hcut, perm_middle.mem_iff, mem_cons]
  refine { h with
    counts := ⟨?counts, h.counts.2⟩, listed := fun q => Iff.trans ?listed (listed_serve h hfree q),
    servers := h.servers_update (by simp),
    numSorted := Sorted.insert (hcut ▸ h.numSorted) hbefore hafter,
    nums := fun q hq => ?nums }
  case counts => simp [System.addNum, perm_middle.length_eq, hcut, h.counts.1]
  case listed => exact (or_congr_left (hmem q)).trans or_assoc
  case nums =>
    rcases (hmem q).mp hq with rfl | hq
    · exact hp
    · exact h.nums q hq

theorem inv_addNamed (hcut : before ++ after = s.namedPtys)
    (hbefore : ∀ q ∈ before, strcmp m.signedChar q.name p.name < 0)
    (hafter : ∀ q ∈ after, 0 < strcmp m.signedChar q.name p.name)
    (hp : 0 ∉ p.name ∧ p.name ≠ [] ∧ p.name ≠ ptmx ∧ ¬ IsNum m p.name) :
    Inv m (s.addNamed p before after) := by
  have hmem (q : Pty) : q ∈ before ++ p :: after ↔ q = p ∨ q ∈ s.namedPtys := by
    rw [← hcut, perm_middle.mem_iff, mem_cons]
  refine { h with
    counts := ⟨h.counts.1, ?counts⟩, listed := fun q => Iff.trans ?listed (listed_serve h hfree q),
    servers := h.servers_update (by simp),
    namedSorted := Sorted.insert (hcut ▸ h.namedSorted) (fun q hq => ?before) fun q hq => ?after,
    names := fun q hq => ?names }
  case counts => simp [System.addNamed, perm_middle.length_eq, hcut, h.counts.2]
  case listed => exact (or_congr_right (hmem q)).trans or_left_comm
  case before =>
    exact (strcmp_neg_iff (h.clean q (hcut ▸ mem_append_left _ hq)) hp.1).mp (hbefore q hq)
  case after =>
    exact (strcmp_pos_iff (h.clean q (hcut ▸ mem_append_right _ hq)) hp.1).mp (hafter q hq)
  case names =>
    rcases (hmem q).mp hq with rfl | hq
    · exact hp
    · exact h.names q hq

omit h hfree in
theorem sequencedName_spec (hidx : idx < 2 ^ 31) (name : CStr) :
    0 ∉ sequencedName name.val idx ∧ sequencedName name.val idx ≠ [] ∧
      sequencedName name.val idx ≠ ptmx := by
  have hne := decimal_ne_nil idx
  refine ⟨?_, by simp [sequencedName, hne], fun hptmx => ?_⟩
  · intro hzero
    rcases mem_append.mp hzero with hzero | hzero
    · exact name.property (dropLast_subset _ hzero)
    · exact zero_notMem_decimal hidx hzero
  · -- it ends with a digit
    have hlast : (decimal idx).getLast? = some 120 := by
      have hall := congrArg getLast? hptmx
      rw [sequencedName, getLast?_append_of_ne_nil _ hne] at hall
      exact hall
    have hdigit := (decimal_digit (by omega) 120 (mem_of_getLast? hlast)).2
    simp at hdigit

omit h hfree in
theorem inv_create (h : Inv m s) (hfree : s.servers addr = none)
    (hguard : guard m s (.create name addr)) :
    ∃ t, step m s (.create name addr) = some t ∧ Inv m t := by
  simp only [step, ptyCreate]
  simp only [guard] at hguard
  split_ifs at hguard ⊢ with hnil hseq hnum
  · obtain ⟨n, hpos, hn, hnone⟩ := hguard
    obtain ⟨slot, hslot⟩ := numSlot_some hpos hn h.one_le h.numSorted hnone
    obtain ⟨hcut, hmin, hmax, hbefore, hafter⟩ := numSlot_spec hslot (by omega) h.numSorted h.one_le
    refine ⟨_, by rw [hslot]; rfl, ?_⟩
    exact inv_addNum h hfree hcut hbefore hafter ⟨slot.idx, hmin, hmax, rfl, rfl⟩
  · obtain ⟨slot, hslot, hnum, hbefore, hafter⟩ := hguard
    obtain ⟨hcut, hmax⟩ := sequencedSlot_cut hslot (by omega)
    obtain ⟨hclean, hne, hptmx⟩ := sequencedName_spec hmax name
    refine ⟨_, by rw [hslot]; rfl, ?_⟩
    exact inv_addNamed h hfree hcut hbefore hafter ⟨hclean, hne, hptmx, hnum⟩
  · exact ⟨s, rfl, h⟩
  · cases hslot : namedSlot m name.val s.namedPtys with
    | none => exact ⟨s, rfl, h⟩
    | some cut =>
      obtain ⟨hcut, hbefore, hafter⟩ := namedSlot_spec hslot h.namedSorted name.property h.clean
      refine ⟨_, rfl, inv_addNamed h hfree hcut hbefore hafter ⟨name.property, hnil, hguard, ?_⟩⟩
      rintro ⟨hne, hend⟩
      apply hnum ⟨fun hzero => hne ?_, hend⟩
      rw [numOf, hzero]
      rfl

theorem not_isNum_of_found (name : CStr)
    (hfind : ptyFindDir m (s.addNamed p before after) name = .pty p.addr) :
    ¬ IsNum m name.val := by
  intro hnum
  rw [find_num name hnum] at hfind
  obtain ⟨q, hq, haddr, -⟩ := findNum_mem hfind
  exact h.addr_ne hfree (.inl hq) haddr

omit h hfree in
theorem search_of_sound (hsound : Sound m t) (hp : p ∈ t.namedPtys) (hclean : 0 ∉ p.name)
    (hne : p.name ≠ []) (hptmx : p.name ≠ ptmx) (hnum : ¬ IsNum m p.name) :
    findNamed m p.name t.namedPtys = .pty p.addr := by
  obtain ⟨sv, hsv, rfl⟩ := (hsound.listed p).mp (.inr hp)
  rw [← hsound.found _ sv ⟨sv.pty.name, hclean⟩ hsv rfl]
  exact (find_named ⟨sv.pty.name, hclean⟩ hne hptmx hnum).symm

/-- Every terminal is found behind smaller names only, so each has its place. -/
theorem placed_of_sound
    (hcut : before ++ after = s.namedPtys) (hclean : 0 ∉ p.name) (hne : p.name ≠ [])
    (hptmx : p.name ≠ ptmx) (hsound : Sound m (s.addNamed p before after)) :
    ¬ IsNum m p.name ∧ (∀ q ∈ before, strcmp m.signedChar q.name p.name < 0) ∧
      ∀ q ∈ after, 0 < strcmp m.signedChar q.name p.name := by
  have hnum : ¬ IsNum m p.name := by
    have hfind := hsound.found p.addr _ ⟨p.name, hclean⟩ (update_self ..) rfl
    exact not_isNum_of_found h hfree ⟨p.name, hclean⟩ hfind
  refine ⟨hnum, ?_, fun q hq => ?_⟩
  · have hp : p ∈ (s.addNamed p before after).namedPtys := mem_append_right _ (by simp)
    apply findNamed_passed (search_of_sound hsound hp hclean hne hptmx hnum)
    exact fun q hq => h.addr_ne hfree (.inr (hcut ▸ mem_append_left _ hq))
  · have hq' : q ∈ s.namedPtys := hcut ▸ mem_append_right _ hq
    obtain ⟨hqclean, hqne, hqptmx, hqnum⟩ := h.names q hq'
    have hlisted : q ∈ (s.addNamed p before after).namedPtys :=
      mem_append_right _ (mem_cons_of_mem p hq)
    have hfind := search_of_sound hsound hlisted hqclean hqne hqptmx hqnum
    have hbefore : ∀ r ∈ before ++ [p], r.addr ≠ q.addr := by
      intro r hr haddr
      rcases mem_append.mp hr with hr | hr
      · have hr' : r ∈ s.namedPtys := hcut ▸ mem_append_left _ hr
        obtain rfl := h.eq_of_addr (.inr hr') (.inr hq') haddr
        have hsorted := h.namedSorted
        rw [← hcut] at hsorted
        exact lt_irrefl _ (hsorted.cut.2.2 r hr r hq)
      · rw [mem_singleton.mp hr] at haddr
        exact h.addr_ne hfree (.inr hq') haddr.symm
    have hpassed : strcmp m.signedChar p.name q.name < 0 := by
      apply findNamed_passed _ hbefore p (by simp)
      · exact after
      · rw [append_assoc]
        exact hfind
    rw [strcmp_swap]
    exact neg_pos.mpr hpassed

end

theorem guard_of_create (h : Inv m s) (hfree : s.servers addr = none)
    (hstep : step m s (.create name addr) = some t) (hsound : Sound m t) :
    guard m s (.create name addr) := by
  simp only [step, ptyCreate] at hstep
  simp only [guard]
  split_ifs at hstep ⊢ with hnil hseq hnum
  · obtain ⟨⟨p, u⟩, hcreate, rfl⟩ := map_eq_some_iff.mp hstep
    obtain ⟨slot, hslot, -⟩ := map_eq_some_iff.mp hcreate
    obtain ⟨hcut, hmin, hmax, hbefore, hafter⟩ := numSlot_spec hslot (by omega) h.numSorted h.one_le
    refine ⟨slot.idx, hmin, hmax, fun p hp => ?_⟩
    rw [← hcut] at hp
    rcases mem_append.mp hp with hp | hp
    · exact ne_of_lt (hbefore p hp)
    · exact ne_of_gt (hafter p hp)
  · obtain ⟨⟨p, u⟩, hcreate, rfl⟩ := map_eq_some_iff.mp hstep
    obtain ⟨slot, hslot, heq⟩ := map_eq_some_iff.mp hcreate
    obtain ⟨hcut, hmax⟩ := sequencedSlot_cut hslot (by omega)
    obtain ⟨hclean, hne, hptmx⟩ := sequencedName_spec hmax name
    cases heq
    refine ⟨slot, hslot, ?_⟩
    exact placed_of_sound (p := ⟨addr, _, _⟩) h hfree hcut hclean hne hptmx hsound
  · exact fun hptmx => strtol_ptmx (hptmx ▸ hnum.2)
  · intro hptmx
    cases hslot : namedSlot m name.val s.namedPtys with
    | none =>
      obtain ⟨p, hp, hname⟩ := namedSlot_none hslot name.property h.clean
      exact (h.names p hp).2.2.1 (hname.trans hptmx)
    | some cut =>
      rw [hslot] at hstep
      cases hstep
      have hfind := hsound.found addr _ name (update_self ..) rfl
      have hcmp : strcmp m.signedChar name.val ptmx = 0 :=
        (strcmp_eq_zero_iff name.property (by decide)).mpr hptmx
      rw [ptyFindDir, if_pos hcmp] at hfind
      cases hfind

variable {sv : Server}

theorem remove_spec {κ : Type*} [LinearOrder κ] {key : Pty → κ} (h : Inv m s)
    (hall : ∀ q ∈ ptys, q ∈ s.numPtys ∨ q ∈ s.namedPtys) (hsorted : Sorted key ptys)
    (hp : p ∈ ptys) :
    Sorted key (remove p ptys) ∧ (remove p ptys).length + 1 = ptys.length ∧
      ∀ q, q ∈ remove p ptys ↔ q ≠ p ∧ q ∈ ptys := by
  obtain ⟨p', as, bs, -, haddr, hcut, hremove⟩ :=
    exists_of_eraseP (p := fun q : Pty => decide (q.addr = p.addr)) hp (by simp)
  obtain rfl := h.eq_of_addr (hall p' (by simp [hcut])) (hall p hp) (of_decide_eq_true haddr)
  rw [remove, hremove, hcut]
  rw [hcut] at hsorted
  refine ⟨hsorted.remove, perm_middle.length_eq.symm, fun q => ?_⟩
  -- the keys of the others are different
  have hnodup : (as ++ p' :: bs).Nodup := hsorted.imp fun hlt => ne_of_apply_ne key hlt.ne
  have hout := (nodup_cons.mp (perm_middle.nodup_iff.mp hnodup)).1
  rw [perm_middle.mem_iff, mem_cons]
  exact ⟨fun hq => ⟨fun heq => hout (heq ▸ hq), .inr hq⟩, fun hq => hq.2.resolve_left hq.1⟩

theorem remove_absent (h : ∀ q ∈ ptys, q.addr ≠ p.addr) : remove p ptys = ptys :=
  eraseP_of_forall_not (by simpa using h)

section

variable (h : Inv m s) (hsv : s.servers addr = some sv)
include h hsv

theorem inv_setServer (sv' : Server)
    (hpty : sv'.pty = sv.pty) (hcount : sv'.referenceCount + 1 = sv'.handles)
    (hhandles : 1 ≤ sv'.handles) :
    Inv m { s with servers := update s.servers addr (some sv') } := by
  have haddr := (h.servers addr sv hsv).1
  refine { h with
    listed := fun q => (h.listed q).trans ?_
    servers := h.servers_update (by simp [hpty, haddr, hcount, hhandles]) }
  by_cases hq : q.addr = addr
  · simp [hq, hsv, hpty]
  · simp [hq]

theorem listed_without (q : Pty) : (q ≠ sv.pty ∧ (q ∈ s.numPtys ∨ q ∈ s.namedPtys)) ↔
      ∃ sv', update s.servers addr none q.addr = some sv' ∧ sv'.pty = q := by
  rw [h.listed q]
  by_cases hq : q.addr = addr
  · simp [hq, hsv, eq_comm]
  · have hne : q ≠ sv.pty := fun heq => hq (by rw [heq, (h.servers addr sv hsv).1])
    simp [hq, hne]

omit h hsv in
theorem Inv.apart (h : Inv m s) (hp : p ∈ s.numPtys) : p ∉ s.namedPtys := fun hp' =>
  (h.names p hp').2.2.2 (h.isNum hp).1

theorem inv_removeNum (hp : sv.pty ∈ s.numPtys) : Inv m { s with
      servers := update s.servers addr none
      numPtys := remove sv.pty s.numPtys
      numCount := s.numCount - 1 } := by
  obtain ⟨hsorted, hlen, hmem⟩ := remove_spec h (fun _ => .inl) h.numSorted hp
  refine { h with
    counts := ⟨?counts, h.counts.2⟩, listed := fun q => Iff.trans ?listed (listed_without h hsv q),
    servers := h.servers_update (by simp), numSorted := hsorted,
    nums := fun q hq => h.nums q ((hmem q).mp hq).2 }
  case counts =>
    have hnum := h.counts.1
    dsimp only
    omega
  case listed =>
    have hapart : q ∈ s.namedPtys → q ≠ sv.pty := fun hq heq => h.apart hp (heq ▸ hq)
    rw [hmem q]
    tauto

theorem inv_removeNamed (hp : sv.pty ∈ s.namedPtys) : Inv m { s with
      servers := update s.servers addr none
      namedPtys := remove sv.pty s.namedPtys
      namedCount := s.namedCount - 1 } := by
  obtain ⟨hsorted, hlen, hmem⟩ := remove_spec h (fun _ => .inr) h.namedSorted hp
  refine { h with
    counts := ⟨h.counts.1, ?counts⟩, listed := fun q => Iff.trans ?listed (listed_without h hsv q),
    servers := h.servers_update (by simp), namedSorted := hsorted,
    names := fun q hq => h.names q ((hmem q).mp hq).2 }
  case counts =>
    have hnamed := h.counts.2
    dsimp only
    omega
  case listed =>
    have hapart : q ∈ s.numPtys → q ≠ sv.pty := fun hq heq => h.apart hq (heq ▸ hp)
    rw [hmem q]
    tauto

end

theorem Inv.mem_named (h : Inv m s) (hp : p ∈ s.numPtys ∨ p ∈ s.namedPtys)
    (hnum : p.numericName = -1) : p ∈ s.namedPtys := by
  rcases hp with hp | hp
  · obtain ⟨n, hpos, -, hn, -⟩ := h.nums p hp
    omega
  · exact hp

section

variable (hsv : s.servers addr = some sv)
include hsv

theorem close_kept (hmany : 1 < sv.referenceCount) :
    step m s (.close addr) = some { s with servers := update s.servers addr sv.closeOne } := by
  simp only [step, ptyCloseServer, hsv, map_some]
  rw [if_pos (by omega)]

theorem close_named (hfew : sv.referenceCount ≤ 1) (hnum : sv.pty.numericName = -1) :
    step m s (.close addr) = some { s with
      servers := update s.servers addr sv.closeOne
      namedPtys := remove sv.pty s.namedPtys
      namedCount := s.namedCount - 1 } := by
  simp only [step, ptyCloseServer, hsv, map_some]
  rw [if_neg (by omega), if_pos hnum]

theorem close_num (hfew : sv.referenceCount ≤ 1) (hnum : sv.pty.numericName ≠ -1) :
    step m s (.close addr) = some { s with
      servers := update s.servers addr sv.closeOne
      numPtys := remove sv.pty s.numPtys
      numCount := s.numCount - 1 } := by
  simp only [step, ptyCloseServer, hsv, map_some]
  rw [if_neg (by omega), if_neg hnum]

end

theorem closeOne_last (hone : sv.handles = 1) : sv.closeOne = none := by
  simp [Server.closeOne, hone]

theorem closeOne_more (hmore : 1 < sv.handles) :
    sv.closeOne = some ⟨sv.pty, sv.referenceCount - 1, sv.handles - 1⟩ :=
  if_neg (Nat.not_le_of_gt hmore)

theorem inv_close (h : Inv m s) (hsv : s.servers addr = some sv)
    (hguard : guard m s (.close addr)) : ∃ t, step m s (.close addr) = some t ∧ Inv m t := by
  obtain ⟨hnot, hlast⟩ := hguard sv hsv
  obtain ⟨-, hcount, hhandles⟩ := h.servers addr sv hsv
  by_cases hone : sv.handles = 1
  · by_cases hnum : sv.pty.numericName = -1
    · refine ⟨_, close_named hsv (by omega) hnum, ?_⟩
      rw [closeOne_last hone]
      exact inv_removeNamed h hsv (h.mem_named (h.live hsv) hnum)
    · refine ⟨_, close_num hsv (by omega) hnum, ?_⟩
      rw [closeOne_last hone]
      exact inv_removeNum h hsv ((hlast hone).resolve_left hnum)
  refine ⟨_, close_kept hsv (by omega), ?_⟩
  rw [closeOne_more (by omega)]
  apply inv_setServer h hsv ⟨sv.pty, sv.referenceCount - 1, sv.handles - 1⟩ rfl
  · dsimp only
    omega
  · dsimp only
    omega

theorem listed_closeOne (h : Inv m s) (hsv : s.servers addr = some sv) (hmore : 1 < sv.handles)
    (hservers : t.servers = update s.servers addr sv.closeOne) (hsound : Sound m t) :
    sv.pty ∈ t.numPtys ∨ sv.pty ∈ t.namedPtys := by
  apply (hsound.listed sv.pty).mpr
  rw [hservers, (h.servers addr sv hsv).1, update_self, closeOne_more hmore]
  exact ⟨_, rfl, rfl⟩

theorem guard_of_close (h : Inv m s) (hstep : step m s (.close addr) = some t)
    (hsound : Sound m t) : guard m s (.close addr) := by
  intro sv hsv
  obtain ⟨haddr, hcount, -⟩ := h.servers addr sv hsv
  have hlive := h.live hsv
  constructor
  · intro htwo
    by_cases hnum : sv.pty.numericName = -1
    · cases (close_named hsv (by omega) hnum).symm.trans hstep
      have hp := h.mem_named hlive hnum
      obtain ⟨-, -, hmem⟩ := remove_spec h (fun _ => .inr) h.namedSorted hp
      rcases listed_closeOne h hsv (by omega) rfl hsound with hin | hin
      · exact h.apart hin hp
      · exact ((hmem _).mp hin).1 rfl
    cases (close_num hsv (by omega) hnum).symm.trans hstep
    by_cases hp : sv.pty ∈ s.numPtys
    · obtain ⟨-, -, hmem⟩ := remove_spec h (fun _ => .inl) h.numSorted hp
      rcases listed_closeOne h hsv (by omega) rfl hsound with hin | hin
      · exact ((hmem _).mp hin).1 rfl
      · exact h.apart hp hin
    -- nothing is removed, but the count goes down
    have hsame : remove sv.pty s.numPtys = s.numPtys := by
      apply remove_absent
      intro q hq heq
      exact hp (h.eq_of_addr hlive (.inl hq) heq.symm ▸ hq)
    have hlen := hsound.counts.1
    dsimp only at hlen
    rw [hsame, h.counts.1] at hlen
    omega
  · intro hone
    by_contra hnot
    obtain ⟨hnum, hp⟩ := not_or.mp hnot
    cases (close_num hsv (by omega) hnum).symm.trans hstep
    obtain ⟨sv', hsv', -⟩ := (hsound.listed sv.pty).mp (.inr (hlive.resolve_left hp))
    simp [haddr, closeOne_last hone] at hsv'

variable {ops : List Op} {op : Op}

theorem inv_step (h : Inv m s) (hallowed : allowed s op)
    (hguard : guard m s op) : ∃ t, step m s op = some t ∧ Inv m t := by
  cases op with
  | create name addr => exact inv_create h hallowed hguard
  | reference addr =>
    obtain ⟨sv, hsv⟩ := isSome_iff_exists.mp hallowed
    obtain ⟨-, hcount, hhandles⟩ := h.servers addr sv hsv
    have hset := inv_setServer h hsv ⟨sv.pty, sv.referenceCount + 1, sv.handles + 1⟩ rfl
      (by push_cast; omega) (Nat.le_add_left ..)
    refine ⟨_, ?_, hset⟩
    simp only [step, referenceNode, hsv, map_some]
  | close addr =>
    obtain ⟨sv, hsv⟩ := isSome_iff_exists.mp hallowed
    exact inv_close h hsv hguard

theorem guard_of_sound (h : Inv m s) (hallowed : allowed s op)
    (hstep : step m s op = some t) (hsound : Sound m t) : guard m s op := by
  cases op with
  | create name addr => exact guard_of_create h hallowed hstep hsound
  | reference addr => trivial
  | close addr => exact guard_of_close h hstep hsound

/-- The registry is sound exactly when every new name gets its place and is not taken for another,
and what is closed is a last handle of a terminal without a sequenced name. -/
theorem registry_sound_iff (hallowed : Along (step m) allowed booted ops) :
    Along (step m) (guard m) booted ops ↔
      ∀ os, os <+: ops → ∃ t, run (step m) booted os = some t ∧ Sound m t :=
  along_iff_prefixes (fun _ _ h => inv_step h) (fun _ h => h.sound)
    (fun _ _ _ h => guard_of_sound h) inv_booted hallowed

def pc : Machine := ⟨true, 32, Nat.le_refl 32⟩

def guiHash : CStr := ⟨[103, 117, 105, 35], by decide⟩

def vt0 : CStr := ⟨[118, 116, 48], by decide⟩

def unnamed : CStr := ⟨[], List.not_mem_nil⟩

def closeInTurn : List Op :=
  [.create unnamed 1, .create guiHash 2, .create guiHash 3, .create vt0 4, .create unnamed 5,
    .close 1, .close 4]

theorem closeInTurn_allowed : Along (step pc) allowed booted closeInTurn := by decide

theorem closeInTurn_guard : Along (step pc) (guard pc) booted closeInTurn := by
  have hunnamed : ∀ {s : System} {addr} (n : ℕ), 0 < n ∧ n < 2 ^ 31 ∧
      (∀ p ∈ s.numPtys, p.numericName ≠ (n : ℤ)) → guard pc s (.create unnamed addr) :=
    fun n h => ⟨n, h⟩
  have hhash : ∀ {s : System} {addr} slot,
      sequencedSlot pc guiHash.val 3 0 s.namedPtys = some slot ∧
      ¬ IsNum pc (sequencedName guiHash.val slot.idx) ∧
      (∀ p ∈ slot.before, strcmp true p.name (sequencedName guiHash.val slot.idx) < 0) ∧
      (∀ p ∈ slot.after, 0 < strcmp true p.name (sequencedName guiHash.val slot.idx)) →
      guard pc s (.create guiHash addr) := fun slot h => ⟨slot, h⟩
  refine along_cons (hunnamed 1 (by decide)) rfl ?_
  refine along_cons (hhash _ ⟨rfl, by decide, by decide, by decide⟩) rfl ?_
  refine along_cons (hhash _ ⟨rfl, by decide, by decide, by decide⟩) rfl ?_
  refine along_cons (show vt0.val ≠ ptmx by decide) rfl ?_
  refine along_cons (hunnamed 2 (by decide)) rfl ?_
  refine along_cons (fun sv hsv => ?_) rfl ?_
  · cases hsv
    exact ⟨by decide, fun _ => .inr (by decide)⟩
  refine along_cons (fun sv hsv => ?_) rfl trivial
  cases hsv
  exact ⟨by decide, fun _ => .inl (by decide)⟩

theorem closeInTurn_sound : Along (step pc) (guard pc) booted closeInTurn ∧
    ∀ os, os <+: closeInTurn → ∃ t, run (step pc) booted os = some t ∧ Sound pc t :=
  ⟨closeInTurn_guard, (registry_sound_iff closeInTurn_allowed).mp closeInTurn_guard⟩

def gui0 : CStr := ⟨[103, 117, 105, 48], by decide⟩

def gui10 : CStr := ⟨[103, 117, 105, 49, 48], by decide⟩

def zeroOne : CStr := ⟨[48, 49], by decide⟩

def eleven : List Op := (List.range 11).map (.create guiHash ·)

theorem eleven_lost : (run (step pc) booted eleven).any fun t => (t.servers 10).any fun sv =>
    sv.pty.name = gui10.val ∧ ptyFindDir pc t gui10 = .nothing := by
  decide +kernel

/-- A closed terminal is found, the eleventh is not, a number is found written in another way, and a
last but one handle takes a terminal off the list. -/
theorem pty_found_wrongly : (Along (step pc) allowed booted [.create guiHash 1, .close 1] ∧
      ∃ t, run (step pc) booted [.create guiHash 1, .close 1] = some t ∧
        t.servers 1 = none ∧ ptyFindDir pc t gui0 = .pty 1) ∧
    (Along (step pc) allowed booted eleven ∧
      ∃ t sv, run (step pc) booted eleven = some t ∧ t.servers 10 = some sv ∧
        sv.pty.name = gui10.val ∧ ptyFindDir pc t gui10 = .nothing) ∧
    (Along (step pc) allowed booted [.create unnamed 1] ∧
      ∃ t sv, run (step pc) booted [.create unnamed 1] = some t ∧ t.servers 1 = some sv ∧
        sv.pty.name ≠ zeroOne.val ∧ ptyFindDir pc t zeroOne = .pty 1) ∧
    (Along (step pc) allowed booted [.create vt0 1, .reference 1, .close 1] ∧
      ∃ t sv, run (step pc) booted [.create vt0 1, .reference 1, .close 1] = some t ∧
        t.servers 1 = some sv ∧ sv.handles = 1 ∧ sv.pty.name = vt0.val ∧
        ptyFindDir pc t vt0 = .nothing) := by
  refine ⟨⟨by decide, _, rfl, rfl, by decide⟩, ⟨by decide +kernel, ?_⟩,
    ⟨by decide, _, _, rfl, rfl, by decide, by decide⟩,
    ⟨by decide, _, _, rfl, rfl, rfl, rfl, by decide⟩⟩
  obtain ⟨t, ht, hservers⟩ := (Option.any_eq_true ..).mp eleven_lost
  obtain ⟨sv, hsv, hlost⟩ := (Option.any_eq_true ..).mp hservers
  exact ⟨t, sv, ht, hsv, of_decide_eq_true hlost⟩

end Ptys
