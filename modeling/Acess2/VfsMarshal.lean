import Acess2.GuardedRuns
import Acess2.VfsHandles

/-! Handles marshalled between processes (`VFS_MarshalHandle` and `VFS_UnmarshalHandle` of
`vfs/open.c`). The slots are taken and cleared under a lock. A slot is filled, and a ticket is
checked, outside of it, so the calls of several processes interleave there.
Beside the state of the code stands what each slot is occupied by. -/
namespace VfsMarshal

open Function GuardedRuns Option VfsHandles VfsModel Nat BitVec Int

variable {N : Type}

def maxMarshalledHandles : ℕ := 16

structure Slot (N : Type) where
  magic : BitVec 32
  handle : Handle N

/-- A call between two of its steps. A handle that is being marshalled stays open meanwhile. -/
inductive Phase (N : Type) where
  | copying (i : ℤ) (h : Handle N)
  | stamping (i : ℤ) (h : Handle N)
  | redeeming (pid : ℕ) (i : ℤ) (ticket : BitVec 64)

/-- What a slot was taken for: a call that has not returned yet, or a ticket -/
inductive Occupant (N : Type) where
  | marshalling (call : ℕ)
  | outstanding (ticket : BitVec 64) (h : Handle N)

/-- `slots` is the table and, at any other index, what lies there in memory. -/
structure Marshal (N : Type) where
  slots : ℤ → Slot N
  vfs : Vfs N
  users : ℕ → ℕ → Handle N
  calls : ℕ → Option (Phase N)
  occupant : ℤ → Option (Occupant N)

def Marshal.view (s : Marshal N) (pid : ℕ) : Vfs N := { s.vfs with user := s.users pid }

inductive Outcome where
  | goesOn | ebadf | eagain | einval | eacces | enfile
  | ticket (value : BitVec 64)
  | fd (fd : ℤ)
  deriving DecidableEq

def ticketOf (magic : BitVec 32) (i : ℤ) : BitVec 64 :=
  magic.setWidth 64 <<< 32 ||| BitVec.ofInt 64 i

def magicOf (ticket : BitVec 64) : BitVec 32 := (ticket >>> 32).setWidth 32

def idOf (ticket : BitVec 64) : ℤ := (ticket.setWidth 32).toInt

/-- The index that passes the range check, which has no lower bound -/
def selects (ticket : BitVec 64) : Option ℤ :=
  if idOf ticket ≥ maxMarshalledHandles then none else some (idOf ticket)

variable {n : ℕ}

theorem testBit_small {k : ℕ} (hn : n < 16) (hk : 32 ≤ k) : n.testBit k = false := by
  apply testBit_lt_two_pow
  calc n < 2 ^ 4 := hn
    _ ≤ 2 ^ k := Nat.pow_le_pow_right (by decide) (by omega)

theorem getLsbD_ticketOf (magic : BitVec 32) (n k : ℕ) : (ticketOf magic n).getLsbD k =
      ((decide (k < 64) &&
        (!decide (k < 32) && (decide (k - 32 < 64) && magic.getLsbD (k - 32)))) ||
        (decide (k < 64) && n.testBit k)) := by
  rw [ticketOf, ofInt_natCast, getLsbD_or, getLsbD_shiftLeft,
    getLsbD_setWidth, getLsbD_ofNat, Bool.and_assoc]

theorem magicOf_ticketOf (magic : BitVec 32) (hn : n < 16) :
    magicOf (ticketOf magic n) = magic := by
  apply eq_of_getLsbD_eq
  intro k hk
  rw [magicOf, getLsbD_setWidth, getLsbD_ushiftRight, getLsbD_ticketOf,
    testBit_small hn (by omega), Nat.add_sub_cancel_left]
  simp [hk, show 32 + k < 64 by omega, show k < 64 by omega]

theorem toInt_ofNat_small (hn : n < 16) : (BitVec.ofNat 32 n).toInt = n := by
  rw [toInt_eq_toNat_of_lt, toNat_ofNat, mod_eq_of_lt (by omega)]
  rw [toNat_ofNat, mod_eq_of_lt (by omega)]
  omega

theorem ticketOf_parts {v : BitVec 64} (hn : n < 16) (hid : idOf v = n) :
    ticketOf (magicOf v) n = v := by
  have hlow : v.setWidth 32 = BitVec.ofNat 32 n := by
    apply eq_of_toInt_eq
    rw [toInt_ofNat_small hn]
    exact hid
  apply eq_of_getLsbD_eq
  intro k hk
  rw [getLsbD_ticketOf, magicOf, getLsbD_setWidth, getLsbD_ushiftRight]
  by_cases hlt : k < 32
  · have hbit := congrArg (fun x => x.getLsbD k) hlow
    rw [getLsbD_setWidth, getLsbD_ofNat] at hbit
    simp only [hlt, decide_true, Bool.true_and] at hbit
    rw [hbit]
    simp [hlt, hk]
  · rw [testBit_small hn (by omega), Nat.add_sub_cancel' (by omega)]
    simp [hlt, hk, show k - 32 < 32 by omega, show k - 32 < 64 by omega]

def takeFree (slots : ℤ → Slot N) (node : N) : ℕ → (ℤ → Slot N) × Option ℤ
  | 0 => (slots, none)
  | n + 1 =>
    let (slots, ret) := takeFree slots node n
    if (slots n).handle.node.isNone then
      (update slots n
        { slots n with handle := { (slots n).handle with node := some node } }, some n)
    else (slots, ret)

/-- `VFS_AllocHandle( true, .. )`, also for a node that has become null -/
def allocUser (vfs : Vfs N) (node : Option N) (mode : BitVec 32) : ℤ × Vfs N :=
  match node with
  | some node => vfsAllocHandle vfs true node mode
  | none =>
    match firstFree vfs.user vfs.maxFD with
    | none => (-1, vfs)
    | some i =>
      (i, vfs.setHandle (.user i) { vfs.user i with node := none, position := 0, mode := mode })

/-- `VFS_MarshalHandle` takes a slot, copies the handle and stamps it; `VFS_UnmarshalHandle` checks
its ticket and redeems it. -/
inductive Op where
  | marshal (call pid : ℕ) (fd : ℤ)
  | copy (call : ℕ)
  | stamp (call : ℕ) (rand : BitVec 32)
  | unmarshal (call pid : ℕ) (ticket : BitVec 64)
  | redeem (call : ℕ)

section

variable (s : Marshal N) (call pid : ℕ)

def marshal (fd : ℤ) : Outcome × Marshal N :=
  match vfsGetHandle (s.view pid) fd with
  | none => (.ebadf, s)
  | some slot =>
    let h := (s.view pid).handle slot
    match h.node with
    | none => (.ebadf, s)
    | some node =>
      match takeFree s.slots node maxMarshalledHandles with
      | (slots, none) => (.eagain, { s with slots := slots })
      | (slots, some i) =>
        (.goesOn, { s with
          slots := slots
          calls := update s.calls call (some (.copying i h))
          occupant := update s.occupant i (some (.marshalling call)) })

def unmarshal (ticket : BitVec 64) : Outcome × Marshal N :=
  match selects ticket with
  | none => (.einval, s)
  | some i =>
    if (s.slots i).handle.node.isNone then (.einval, s)
    else if (s.slots i).magic ≠ magicOf ticket then (.eacces, s)
    else (.goesOn, { s with
      calls := update s.calls call (some (.redeeming pid i ticket)) })

def redeem (i : ℤ) : Outcome × Marshal N :=
  let mh := s.slots i
  let (ret, vfs) := allocUser (s.view pid) mh.handle.node mh.handle.mode
  (if ret = -1 then .enfile else .fd ret, { s with
    slots := update s.slots i { mh with handle := { mh.handle with node := none } }
    users := update s.users pid vfs.user
    calls := update s.calls call none
    occupant := update s.occupant i none })

end

/-- A call that is not at the step in question does not take it. -/
def perform (s : Marshal N) : Op → Option (Outcome × Marshal N)
  | .marshal call pid fd => if (s.calls call).isSome then none else some (marshal s call pid fd)
  | .copy call =>
    match s.calls call with
    | some (.copying i h) =>
      h.mount.map fun mnt =>
        (.goesOn, { s with
          slots := update s.slots i { s.slots i with handle := h }
          vfs := { s.vfs with count := referenceMount s.vfs.count mnt }
          calls := update s.calls call (some (.stamping i h)) })
    | _ => none
  | .stamp call rand =>
    match s.calls call with
    | some (.stamping i h) =>
      some (.ticket (ticketOf rand i), { s with
        slots := update s.slots i { s.slots i with magic := rand }
        calls := update s.calls call none
        occupant := update s.occupant i (some (.outstanding (ticketOf rand i) h)) })
    | _ => none
  | .unmarshal call pid ticket =>
    if (s.calls call).isSome then none else some (unmarshal s call pid ticket)
  | .redeem call =>
    match s.calls call with
    | some (.redeeming pid i _) => some (redeem s call pid i)
    | _ => none

def step (s : Marshal N) (op : Op) : Option (Marshal N) := (perform s op).map Prod.snd

def InTable (i : ℤ) : Prop := 0 ≤ i ∧ i < maxMarshalledHandles

instance : DecidablePred InTable := fun _ => inferInstanceAs (Decidable (_ ∧ _))

section

variable (s : Marshal N)

def Free (i : ℤ) : Prop := (s.slots i).handle.node = none

instance : DecidablePred (Free s) := fun _ => Option.decidableEqNone _

/-- Marshalling takes one free slot, unless all are taken; no ticket selects a slot outside the
table; and what is redeemed is an outstanding ticket, for the handle it stands for. -/
def Law (op : Op) (outcome : Outcome) (t : Marshal N) : Prop :=
  match op with
  | .marshal call _ _ =>
    (outcome = .goesOn → ∃ i, InTable i ∧ t.occupant i = some (.marshalling call) ∧
      Free s i ∧ ∀ j, InTable j → (Free t j ↔ Free s j ∧ j ≠ i)) ∧
    (outcome = .eagain → ∀ j, InTable j → (s.occupant j).isSome = true)
  | .copy _ => True
  | .stamp _ _ => ∃ i v h, InTable i ∧ outcome = .ticket v ∧ t.occupant i = some (.outstanding v h)
  | .unmarshal _ _ ticket => ∀ i ∈ selects ticket, InTable i
  | .redeem call =>
    ∀ pid i ticket, s.calls call = some (.redeeming pid i ticket) →
      ∃ h, s.occupant i = some (.outstanding ticket h) ∧ t.occupant i = none ∧
        ∀ j ∈ firstFree (s.users pid) s.vfs.maxFD, outcome = .fd j ∧
          (t.users pid j).node = h.node ∧ (t.users pid j).mount = h.mount ∧
          (t.users pid j).mode = h.mode

/-- No `VFS_MarshalHandle` is on its way to fill the slot. -/
def Settled (i : ℤ) : Prop := ∀ call, s.occupant i ≠ some (.marshalling call)

/-- At most one slot is free where one is taken, the low half of a ticket is not negative, what was
checked of it still holds when it is redeemed, its slot is not being filled, and the user's slot was
last used for the same mount. -/
def Safe : Op → Prop
  | .marshal _ pid fd =>
    (vfsGetHandle (s.view pid) fd).isSome = true →
      ∀ i j, InTable i → InTable j → Free s i → Free s j → i = j
  | .copy _ => True
  | .stamp _ _ => True
  | .unmarshal _ _ ticket => 0 ≤ idOf ticket
  | .redeem call =>
    ∀ pid i ticket, s.calls call = some (.redeeming pid i ticket) →
      ¬ Free s i ∧ (s.slots i).magic = magicOf ticket ∧ Settled s i ∧
        ∀ j ∈ firstFree (s.users pid) s.vfs.maxFD, (s.users pid j).mount = (s.slots i).handle.mount

instance (i : ℤ) : Decidable (Settled s i) :=
  match h : s.occupant i with
  | some (.marshalling call) => isFalse fun hsettled => hsettled call h
  | some (.outstanding _ _) => isTrue (by simp [Settled, h])
  | none => isTrue (by simp [Settled, h])

theorem oneFree_iff : (∀ i j : Fin maxMarshalledHandles, Free s i → Free s j → i = j) ↔
      ∀ i j, InTable i → InTable j → Free s i → Free s j → i = j := by
  constructor
  · rintro hone i j ⟨hi, hilt⟩ ⟨hj, hjlt⟩ hfi hfj
    obtain ⟨m, rfl⟩ := eq_ofNat_of_zero_le hi
    obtain ⟨n, rfl⟩ := eq_ofNat_of_zero_le hj
    have heq := hone ⟨m, Int.ofNat_lt.mp hilt⟩ ⟨n, Int.ofNat_lt.mp hjlt⟩ hfi hfj
    exact congrArg ofNat (Fin.mk.inj heq)
  · intro hone i j hfi hfj
    have heq := hone i j ⟨by omega, Int.ofNat_lt.mpr i.isLt⟩
      ⟨by omega, Int.ofNat_lt.mpr j.isLt⟩ hfi hfj
    exact Fin.ext (ofNat_inj.mp heq)

instance : DecidablePred (Safe s)
  | .marshal _ pid fd =>
    decidable_of_iff _ (imp_congr_right fun (_ : (vfsGetHandle (s.view pid) fd).isSome = true) =>
      oneFree_iff s)
  | .copy _ => isTrue trivial
  | .stamp _ _ => isTrue trivial
  | .unmarshal _ _ ticket => inferInstanceAs (Decidable (0 ≤ idOf ticket))
  | .redeem call =>
    match h : s.calls call with
    | some (.redeeming pid i ticket) =>
      decidable_of_iff (¬ Free s i ∧ (s.slots i).magic = magicOf ticket ∧ Settled s i ∧
        ∀ j ∈ firstFree (s.users pid) s.vfs.maxFD,
          (s.users pid j).mount = (s.slots i).handle.mount) (by simp [Safe, h])
    | some (.copying _ _) => isTrue (by simp [Safe, h])
    | some (.stamping _ _) => isTrue (by simp [Safe, h])
    | none => isTrue (by simp [Safe, h])

end

variable (slots : ℤ → Slot N) (node : N)

def Slot.taken (mh : Slot N) (node : N) : Slot N :=
  { mh with handle := { mh.handle with node := some node } }

theorem takeFree_slots (n : ℕ) (i : ℤ) : (takeFree slots node n).1 i =
      if 0 ≤ i ∧ i < n ∧ (slots i).handle.node = none then (slots i).taken node else slots i := by
  induction n generalizing i with
  | zero => exact (if_neg (by omega)).symm
  | succ n ih =>
    have hlast : (takeFree slots node n).1 n = slots n := (ih n).trans (if_neg (by omega))
    unfold takeFree
    dsimp only
    rw [hlast]
    by_cases hn : i = n
    · subst hn
      cases hnode : (slots n).handle.node with
      | none =>
        rw [isNone_none, if_pos rfl, if_pos ⟨by omega, by omega, rfl⟩]
        exact update_self ..
      | some held =>
        rw [isNone_some, if_neg Bool.false_ne_true, if_neg (by simp)]
        exact hlast
    have hrange : (0 ≤ i ∧ i < (n + 1 : ℕ) ∧ (slots i).handle.node = none) ↔
        (0 ≤ i ∧ i < n ∧ (slots i).handle.node = none) := by
      refine and_congr_right fun _ => and_congr_left fun _ => ?_
      omega
    rw [if_congr hrange rfl rfl, ← ih i]
    split
    · exact update_of_ne hn ..
    · rfl

theorem takeFree_ret (n : ℕ) :
    ((takeFree slots node n).2 = none ∧ ∀ i : ℤ, 0 ≤ i → i < n → (slots i).handle.node ≠ none) ∨
    ∃ i : ℤ, (takeFree slots node n).2 = some i ∧ 0 ≤ i ∧ i < n ∧ (slots i).handle.node = none := by
  induction n with
  | zero => exact .inl ⟨rfl, fun i hpos hlt => (by omega)⟩
  | succ n ih =>
    have hlast : (takeFree slots node n).1 n = slots n :=
      (takeFree_slots slots node n n).trans (if_neg (by omega))
    unfold takeFree
    dsimp only
    rw [hlast]
    cases hnode : (slots n).handle.node with
    | none => exact .inr ⟨n, rfl, by omega, by omega, hnode⟩
    | some held =>
      rcases ih with ⟨hret, hnone⟩ | ⟨i, hret, hpos, hlt, hfree⟩
      · refine .inl ⟨hret, fun i hpos hlt => ?_⟩
        by_cases hi : i = n
        · rw [hi, hnode]
          exact some_ne_none held
        · exact hnone i hpos (by omega)
      · exact .inr ⟨i, hret, hpos, by omega, hfree⟩

/-- The slots say what they are occupied by, and the calls under way agree. -/
structure Consistent (s : Marshal N) : Prop where
  free : ∀ i, InTable i → s.occupant i = none → Free s i
  marshalling : ∀ i call, InTable i → s.occupant i = some (.marshalling call) → ¬ Free s i
  outstanding : ∀ i ticket h, InTable i → s.occupant i = some (.outstanding ticket h) →
    (s.slots i).handle = h ∧ h.node.isSome = true ∧ ticket = ticketOf (s.slots i).magic i
  copying : ∀ call i h, s.calls call = some (.copying i h) →
    InTable i ∧ h.node.isSome = true ∧ s.occupant i = some (.marshalling call)
  stamping : ∀ call i h, s.calls call = some (.stamping i h) →
    InTable i ∧ h.node.isSome = true ∧ s.occupant i = some (.marshalling call) ∧
      (s.slots i).handle = h
  redeeming : ∀ call pid i ticket, s.calls call = some (.redeeming pid i ticket) →
    InTable i ∧ idOf ticket = i

def Fits (i : ℤ) (mh : Slot N) : Option (Occupant N) → Prop
  | none => mh.handle.node = none
  | some (.marshalling _) => mh.handle.node ≠ none
  | some (.outstanding ticket h) =>
    mh.handle = h ∧ h.node.isSome = true ∧ ticket = ticketOf mh.magic i

def Agrees (slots : ℤ → Slot N) (occupant : ℤ → Option (Occupant N)) (call : ℕ) :
    Option (Phase N) → Prop
  | none => True
  | some (.copying i h) =>
    InTable i ∧ h.node.isSome = true ∧ occupant i = some (.marshalling call)
  | some (.stamping i h) =>
    InTable i ∧ h.node.isSome = true ∧ occupant i = some (.marshalling call) ∧ (slots i).handle = h
  | some (.redeeming _ i ticket) => InTable i ∧ idOf ticket = i

variable {s t : Marshal N} {call pid : ℕ} {outcome : Outcome}

theorem consistent_iff : Consistent s ↔ (∀ i, InTable i → Fits i (s.slots i) (s.occupant i)) ∧
    ∀ call, Agrees s.slots s.occupant call (s.calls call) := by
  constructor
  · intro hs
    refine ⟨fun i hi => ?_, fun call => ?_⟩
    · rcases hocc : s.occupant i with _ | call | ⟨ticket, h⟩
      · exact hs.free i hi hocc
      · exact hs.marshalling i call hi hocc
      · exact hs.outstanding i ticket h hi hocc
    · rcases hcall : s.calls call with _ | ⟨i, h⟩ | ⟨i, h⟩ | ⟨pid, i, ticket⟩
      · trivial
      · exact hs.copying call i h hcall
      · exact hs.stamping call i h hcall
      · exact hs.redeeming call pid i ticket hcall
  · rintro ⟨hslot, hcall⟩
    have hslot' {i o} (hi : InTable i) (ho : s.occupant i = o) : Fits i (s.slots i) o :=
      ho ▸ hslot i hi
    have hcall' {call p} (hp : s.calls call = p) : Agrees s.slots s.occupant call p :=
      hp ▸ hcall call
    exact ⟨fun i hi ho => (hslot' hi ho :), fun i call hi ho => (hslot' hi ho :),
      fun i ticket h hi ho => (hslot' hi ho :), fun call i h hp => (hcall' hp :),
      fun call i h hp => (hcall' hp :), fun call pid i ticket hp => (hcall' hp :)⟩

/-- A step of one call changes at most one slot, which no other call fills. -/
theorem Consistent.change (hs : Consistent s) {i : ℤ} {slots : ℤ → Slot N}
    {occupant : ℤ → Option (Occupant N)} {phase : Option (Phase N)} {vfs : Vfs N}
    {users : ℕ → ℕ → Handle N} (hslots : ∀ j, InTable j → j ≠ i → slots j = s.slots j)
    (hocc : ∀ j, j ≠ i → occupant j = s.occupant j)
    (hother : ∀ j c, c ≠ call → s.occupant j = some (.marshalling c) → j ≠ i)
    (hslot : Fits i (slots i) (occupant i)) (hphase : Agrees slots occupant call phase) :
    Consistent ⟨slots, vfs, users, update s.calls call phase, occupant⟩ := by
  obtain ⟨hfits, hagrees⟩ := consistent_iff.mp hs
  refine consistent_iff.mpr ⟨fun j hj => ?_, fun c => ?_⟩
  · by_cases hji : j = i
    · exact hji ▸ hslot
    · simpa only [hslots j hj hji, hocc j hji] using hfits j hj
  · by_cases hc : c = call
    · subst hc
      simpa only [update_self] using hphase
    · have hwas := hagrees c
      simp only [update_of_ne hc]
      generalize s.calls c = was at hwas ⊢
      rcases was with _ | ⟨j, h⟩ | ⟨j, h⟩ | ⟨pid, j, ticket⟩
      · trivial
      · obtain ⟨hj, hsome, hfilling⟩ := hwas
        exact ⟨hj, hsome, (hocc j (hother j c hc hfilling)).trans hfilling⟩
      · obtain ⟨hj, hsome, hfilling, hh⟩ := hwas
        have hne := hother j c hc hfilling
        exact ⟨hj, hsome, (hocc j hne).trans hfilling, (congrArg _ (hslots j hj hne)).trans hh⟩
      · exact hwas

variable {i j : ℤ} {ticket : BitVec 64} {node}

theorem selects_eq_some : selects ticket = some i ↔ idOf ticket = i ∧ i < maxMarshalledHandles := by
  rw [selects, ite_none_left_eq_some, some.injEq]
  omega

theorem Consistent.free_iff (hs : Consistent s) (hi : InTable i) :
    Free s i ↔ s.occupant i = none := by
  refine ⟨fun hfree => ?_, hs.free i hi⟩
  rcases hocc : s.occupant i with _ | call | ⟨ticket, h⟩
  · rfl
  · exact absurd hfree (hs.marshalling i call hi hocc)
  · obtain ⟨rfl, hsome, -⟩ := hs.outstanding i ticket h hi hocc
    rw [show (s.slots i).handle.node = none from hfree] at hsome
    cases hsome

theorem Consistent.outstanding_iff (hs : Consistent s) (hi : InTable i) (hid : idOf ticket = i) :
    (∃ h, s.occupant i = some (.outstanding ticket h)) ↔
      ¬ Free s i ∧ (s.slots i).magic = magicOf ticket ∧ Settled s i := by
  obtain ⟨n, rfl⟩ := eq_ofNat_of_zero_le hi.1
  have hn : n < 16 := Int.ofNat_lt.mp hi.2
  constructor
  · rintro ⟨h, hocc⟩
    obtain ⟨-, -, hticket⟩ := hs.outstanding _ ticket h hi hocc
    refine ⟨?_, ?_, ?_⟩
    · rw [hs.free_iff hi, hocc]
      exact some_ne_none _
    · rw [hticket, magicOf_ticketOf _ hn]
    · intro call hmarshalling
      rw [hocc] at hmarshalling
      cases hmarshalling
  · rintro ⟨hheld, hmagic, hsettled⟩
    rcases hocc : s.occupant n with _ | call | ⟨other, h⟩
    · exact absurd (hs.free _ hi hocc) hheld
    · exact absurd hocc (hsettled call)
    · obtain ⟨-, -, hother⟩ := hs.outstanding _ other h hi hocc
      refine ⟨h, ?_⟩
      rw [hother, hmagic, ticketOf_parts hn hid]

def filled (s : Marshal N) (node : N) (j : ℤ) : Slot N :=
  if InTable j ∧ Free s j then (s.slots j).taken node else s.slots j

theorem filled_node (hj : InTable j) : (filled s node j).handle.node ≠ none := by
  unfold filled
  split
  · exact some_ne_none node
  · rename_i hheld
    exact fun hnone => hheld ⟨hj, hnone⟩

theorem filled_of_held (hheld : ¬ Free s j) : filled s node j = s.slots j :=
  if_neg fun h => hheld h.2

theorem marshal_cases (fd : ℤ) (hmarshal : marshal s call pid fd = (outcome, t)) :
    (outcome = .ebadf ∧ t = s ∧ vfsGetHandle (s.view pid) fd = none) ∨
    (vfsGetHandle (s.view pid) fd ≠ none ∧ outcome = .eagain ∧
      (∀ i, InTable i → ¬ Free s i) ∧ t = s) ∨
    (vfsGetHandle (s.view pid) fd ≠ none ∧ outcome = .goesOn ∧ ∃ i h node, InTable i ∧ Free s i ∧
      h.node.isSome = true ∧ t = { s with
        slots := filled s node
        calls := update s.calls call (some (.copying i h))
        occupant := update s.occupant i (some (.marshalling call)) }) := by
  unfold marshal at hmarshal
  split at hmarshal
  case h_1 hget =>
    cases hmarshal
    exact .inl ⟨rfl, rfl, hget⟩
  case h_2 slot hget =>
    right
    have hvalid : vfsGetHandle (s.view pid) fd ≠ none := by
      rw [hget]
      exact some_ne_none slot
    have hopen : ((s.view pid).handle slot).node.isSome = true := (filter_eq_some_iff.mp hget).2
    dsimp only at hmarshal
    split at hmarshal
    case h_1 hnode =>
      rw [hnode] at hopen
      cases hopen
    case h_2 node hnode =>
      have hslots : (takeFree s.slots node maxMarshalledHandles).1 = filled s node := by
        funext j
        rw [takeFree_slots]
        exact if_congr (and_assoc.symm) rfl rfl
      rcases takeFree_ret s.slots node maxMarshalledHandles with
        ⟨hret, hnone⟩ | ⟨i, hret, hpos, hlt, hfree⟩
      · left
        have hfull : ∀ i, InTable i → ¬ Free s i := fun i hi => hnone i hi.1 hi.2
        have hsame : (takeFree s.slots node maxMarshalledHandles).1 = s.slots := by
          rw [hslots]
          funext j
          exact if_neg fun hj => hfull j hj.1 hj.2
        rw [show takeFree s.slots node maxMarshalledHandles = (s.slots, none) from
          Prod.ext hsame hret] at hmarshal
        cases hmarshal
        exact ⟨hvalid, rfl, hfull, rfl⟩
      · right
        rw [show takeFree s.slots node maxMarshalledHandles = (_, some i) from
          Prod.ext hslots hret] at hmarshal
        cases hmarshal
        exact ⟨hvalid, rfl, i, _, node, ⟨hpos, hlt⟩, hfree, hopen, rfl⟩

theorem marshal_iff (hs : Consistent s) (fd : ℤ) (hmarshal : marshal s call pid fd = (outcome, t)) :
    (Law s (.marshal call pid fd) outcome t ↔ Safe s (.marshal call pid fd)) ∧
    (Safe s (.marshal call pid fd) → Consistent t) := by
  rcases marshal_cases fd hmarshal with ⟨rfl, rfl, hget⟩ | ⟨hget, rfl, hfull, rfl⟩ |
    ⟨hget, rfl, i, h, node, hi, hfree, hopen, rfl⟩
  · exact ⟨iff_of_true (by simp [Law]) (by simp [Safe, hget]), fun _ => hs⟩
  · refine ⟨iff_of_true ⟨fun heq => (by cases heq), fun _ j hj => ?_⟩ ?_, fun _ => hs⟩
    · rw [isSome_iff_ne_none]
      intro hnone
      exact hfull j hj (hs.free j hj hnone)
    · intro _ i _ hi _ hfree
      exact absurd hfree (hfull i hi)
  have hsafe : Safe s (.marshal call pid fd) ↔ ∀ j, InTable j → Free s j → j = i := by
    constructor
    · intro hsafe j hj hfj
      exact hsafe (isSome_iff_ne_none.mpr hget) j i hj hi hfj hfree
    · intro hone _ j k hj hk hfj hfk
      rw [hone j hj hfj, hone k hk hfk]
  rw [hsafe]
  refine ⟨⟨?_, ?_⟩, ?_⟩
  · rintro ⟨hlaw, -⟩ j hj hfj
    obtain ⟨k, hk, hocc, -, hexactly⟩ := hlaw rfl
    by_contra hne
    have hkept : ∀ m, InTable m → Free s m → m = k := by
      intro m hm hfm
      by_contra hmk
      exact filled_node hm ((hexactly m hm).mpr ⟨hfm, hmk⟩)
    rw [hkept j hj hfj, hkept i hi hfree] at hne
    exact hne rfl
  · intro hone
    refine ⟨fun _ => ⟨i, hi, update_self .., hfree, fun j hj => ?_⟩, fun heq => (by cases heq)⟩
    refine iff_of_false (filled_node hj) ?_
    rintro ⟨hfj, hne⟩
    exact hne (hone j hj hfj)
  · intro hone
    refine hs.change (fun j hj hne => filled_of_held fun hfj => hne (hone j hj hfj))
      (fun j hne => update_of_ne hne ..) ?_ ?_ ⟨hi, hopen, update_self ..⟩
    · rintro j c - hocc rfl
      cases ((hs.free_iff hi).mp hfree).symm.trans hocc
    · rw [update_self]
      exact filled_node hi

theorem filling_ne {c : ℕ}
    (hi : s.occupant i = some (.marshalling call)) (hj : s.occupant j = some (.marshalling c))
    (hne : c ≠ call) : j ≠ i := by
  rintro rfl
  cases hi.symm.trans hj
  exact hne rfl

theorem copy_consistent (hs : Consistent s) (hcopy : perform s (.copy call) = some (outcome, t)) :
    Consistent t := by
  unfold perform at hcopy
  dsimp only at hcopy
  split at hcopy
  case h_2 => cases hcopy
  case h_1 i h hcall =>
    obtain ⟨mnt, -, heq⟩ := map_eq_some_iff.mp hcopy
    cases heq
    obtain ⟨hi, hsome, hocc⟩ := hs.copying call i h hcall
    refine hs.change (fun j _ hne => update_of_ne hne ..) (fun _ _ => rfl)
      (fun j c hne hj => filling_ne hocc hj hne) ?_ ⟨hi, hsome, hocc, by rw [update_self]⟩
    rw [update_self, hocc]
    exact isSome_iff_ne_none.mp hsome

theorem stamp_consistent (hs : Consistent s) {rand : BitVec 32}
    (hstamp : perform s (.stamp call rand) = some (outcome, t)) :
    Law s (.stamp call rand) outcome t ∧ Consistent t := by
  unfold perform at hstamp
  dsimp only at hstamp
  split at hstamp
  case h_2 => cases hstamp
  case h_1 i h hcall =>
    cases hstamp
    obtain ⟨hi, hsome, hocc, hhandle⟩ := hs.stamping call i h hcall
    refine ⟨⟨i, _, h, hi, rfl, update_self ..⟩, ?_⟩
    refine hs.change (fun j _ hne => update_of_ne hne ..) (fun j hne => update_of_ne hne ..)
      (fun j c hne hj => filling_ne hocc hj hne) ?_ trivial
    rw [update_self, update_self]
    exact ⟨hhandle, hsome, rfl⟩

theorem selects_inTable_iff (ticket : BitVec 64) :
    (∀ i ∈ selects ticket, InTable i) ↔ 0 ≤ idOf ticket := by
  constructor
  · intro hall
    by_contra hneg
    have hselects : selects ticket = some (idOf ticket) :=
      selects_eq_some.mpr ⟨rfl, by simp only [maxMarshalledHandles]; omega⟩
    exact hneg (hall _ hselects).1
  · intro hpos i hi
    obtain ⟨rfl, hlt⟩ := selects_eq_some.mp hi
    exact ⟨hpos, hlt⟩

theorem unmarshal_consistent (hs : Consistent s) (hpos : 0 ≤ idOf ticket)
    (hunmarshal : unmarshal s call pid ticket = (outcome, t)) : Consistent t := by
  unfold unmarshal at hunmarshal
  split at hunmarshal
  case h_1 =>
    cases hunmarshal
    exact hs
  case h_2 i hselects =>
    split at hunmarshal
    · cases hunmarshal
      exact hs
    split at hunmarshal
    · cases hunmarshal
      exact hs
    cases hunmarshal
    obtain ⟨hfits, hagrees⟩ := consistent_iff.mp hs
    refine consistent_iff.mpr ⟨hfits, fun c => ?_⟩
    dsimp only
    rw [update_apply]
    split
    · obtain ⟨rfl, hlt⟩ := selects_eq_some.mp hselects
      exact ⟨⟨hpos, hlt⟩, rfl⟩
    · exact hagrees c

theorem allocUser_some {v : Vfs N} {j : ℕ} (hfirst : firstFree v.user v.maxFD = some j)
    (node : Option N) (mode : BitVec 32) : (allocUser v node mode).1 = j ∧
      (allocUser v node mode).2.user = update v.user j
        { v.user j with node := node, position := 0, mode := mode } := by
  cases node <;> simp [allocUser, vfsAllocHandle, hfirst, Vfs.setHandle]

theorem redeem_iff (hs : Consistent s) (hcall : s.calls call = some (.redeeming pid i ticket))
    (hredeem : redeem s call pid i = (outcome, t)) :
    (Law s (.redeem call) outcome t ↔ Safe s (.redeem call)) ∧
    (Safe s (.redeem call) → Consistent t) := by
  obtain ⟨hi, hid⟩ := hs.redeeming call pid i ticket hcall
  have hsafe : Safe s (.redeem call) ↔ (∃ h, s.occupant i = some (.outstanding ticket h)) ∧
      ∀ j ∈ firstFree (s.users pid) s.vfs.maxFD,
        (s.users pid j).mount = (s.slots i).handle.mount := by
    rw [hs.outstanding_iff hi hid]
    simp [Safe, hcall]
    tauto
  rw [hsafe]
  unfold redeem at hredeem
  have halloc {j} (hj : firstFree (s.users pid) s.vfs.maxFD = some j) := allocUser_some
    (v := s.view pid) hj (s.slots i).handle.node (s.slots i).handle.mode
  rcases hresult : allocUser (s.view pid) (s.slots i).handle.node (s.slots i).handle.mode with
    ⟨ret, vfs'⟩
  dsimp only at hredeem
  cases hredeem
  constructor
  · constructor
    · intro hlaw
      obtain ⟨h, hocc, -, hgives⟩ := hlaw pid i ticket hcall
      obtain ⟨hhandle, -⟩ := hs.outstanding i ticket h hi hocc
      refine ⟨⟨h, hocc⟩, fun j hj => ?_⟩
      obtain ⟨-, -, hmount, -⟩ := hgives j hj
      obtain ⟨-, huser⟩ := halloc hj
      dsimp only at hmount huser
      rw [update_self, huser, update_self] at hmount
      rw [hhandle]
      exact hmount
    · rintro ⟨⟨h, hocc⟩, hmount⟩ pid' i' ticket' hcall'
      cases hcall.symm.trans hcall'
      obtain ⟨rfl, -⟩ := hs.outstanding i ticket h hi hocc
      refine ⟨_, hocc, update_self .., fun j hj => ?_⟩
      obtain ⟨hret, huser⟩ := halloc hj
      dsimp only at hret huser ⊢
      rw [update_self, huser, update_self, hret, if_neg (by omega)]
      exact ⟨rfl, rfl, hmount j hj, rfl⟩
  · rintro ⟨⟨h, hocc⟩, -⟩
    refine hs.change (fun j _ hne => update_of_ne hne ..) (fun j hne => update_of_ne hne ..) ?_ ?_
      trivial
    · rintro j c - hj rfl
      cases hocc.symm.trans hj
    · rw [update_self, update_self]
      rfl

theorem perform_iff (hs : Consistent s) {op : Op} (hop : perform s op = some (outcome, t)) :
    (Law s op outcome t ↔ Safe s op) ∧ (Safe s op → Consistent t) := by
  cases op with
  | marshal call pid fd =>
    obtain ⟨-, hop⟩ := ite_none_left_eq_some.mp hop
    exact marshal_iff hs fd (some.inj hop)
  | copy call => exact ⟨Iff.rfl, fun _ => copy_consistent hs hop⟩
  | stamp call rand =>
    obtain ⟨hlaw, ht⟩ := stamp_consistent hs hop
    exact ⟨iff_of_true hlaw trivial, fun _ => ht⟩
  | unmarshal call pid ticket =>
    obtain ⟨-, hop⟩ := ite_none_left_eq_some.mp hop
    exact ⟨selects_inTable_iff ticket, fun hpos =>
      unmarshal_consistent hs hpos (some.inj hop)⟩
  | redeem call =>
    rw [perform] at hop
    split at hop
    case h_1 pid i ticket hcall => exact redeem_iff hs hcall (some.inj hop)
    case h_2 => cases hop

/-- Every outcome that the step can have obeys the law. -/
def Lawful (s : Marshal N) (op : Op) : Prop :=
  ∀ outcome t, perform s op = some (outcome, t) → Law s op outcome t

theorem marshalling_lawful_iff_safe (hs : Consistent s) {ops : List Op}
    (hrun : run step s ops = some t) : Along step Lawful s ops ↔ Along step Safe s ops := by
  apply run_along_congr _ _ hs hrun
  · intro s op u hs hsafe hstep
    obtain ⟨⟨outcome, u'⟩, hop, rfl⟩ := map_eq_some_iff.mp hstep
    exact (perform_iff hs hop).2 hsafe
  · intro s op u hs hstep
    obtain ⟨⟨outcome, u'⟩, hop, rfl⟩ := map_eq_some_iff.mp hstep
    have hiff := (perform_iff hs hop).1
    constructor
    · intro hlawful
      exact hiff.mp (hlawful outcome u' hop)
    · intro hsafe outcome' v hop'
      cases hop.symm.trans hop'
      exact hiff.mpr hsafe

def sampleHandle : Handle ℕ := ⟨some 7, some 0, 0, 6⟩

def sampleVfs : Vfs ℕ where
  mounts := []
  rootMount := none
  count _ := 0
  kernel _ := ⟨none, none, 0, 0⟩
  user _ := ⟨none, none, 0, 0⟩
  maxFD := 2
  maxFD_le := two_le_kernelFlag
  who := ⟨0, 0⟩
  chroot := none
  cwd := none

def sampleBoot : Marshal ℕ where
  slots _ := ⟨0, ⟨none, none, 0, 0⟩⟩
  vfs := sampleVfs
  users _ j := if j = 0 then sampleHandle else { sampleHandle with node := none }
  calls _ := none
  occupant _ := none

def sampleAlmostFull : Marshal ℕ :=
  { sampleBoot with
    slots := fun i => if i = 0 then ⟨0, ⟨none, none, 0, 0⟩⟩ else ⟨5, sampleHandle⟩
    occupant := fun i => if i = 0 then none else some (.outstanding (ticketOf 5 i) sampleHandle) }

theorem sampleAlmostFull_consistent : Consistent sampleAlmostFull := by
  refine consistent_iff.mpr ⟨fun i _ => ?_, fun _ => trivial⟩
  simp only [sampleAlmostFull]
  split
  · rfl
  · exact ⟨rfl, rfl, rfl⟩

def sampleTransfer : List Op :=
  [.marshal 0 0 0, .copy 0, .stamp 0 9, .unmarshal 1 3 (ticketOf 9 0), .redeem 1]

theorem last_slot_is_lawful : Along step Lawful sampleAlmostFull sampleTransfer := by
  obtain ⟨t, hrun⟩ := isSome_iff_exists.mp
    (show (run step sampleAlmostFull sampleTransfer).isSome = true by decide +kernel)
  exact (marshalling_lawful_iff_safe sampleAlmostFull_consistent hrun).mpr (by decide +kernel)

/-- The first handle takes all 16 slots, so the second is refused; all ones select slot -1. -/
theorem first_marshal_takes_all : (run step sampleBoot [.marshal 0 0 0, .copy 0, .stamp 0 9]).map
      (fun s => ((perform s (.marshal 1 0 0)).map Prod.fst,
        (List.range 16).countP fun i => (s.occupant i).isSome)) = some (some .eagain, 1) ∧
    selects (BitVec.allOnes 64) = some (-1) := by
  decide +kernel

end VfsMarshal
