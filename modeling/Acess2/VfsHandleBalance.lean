import Acess2.GuardedRuns
import Acess2.Tallies
import Acess2.VfsHandles
import Acess2.VfsPasses

/-! Open handles against the open handle counts of the mounts.
`VFS_ParsePath` and `VFS_GetMountByIdent` hold the mount they find. Where no handle comes of it
in the end, the calls before `VFS_int_CreateHandle` give it back, and that one does not. -/
namespace VfsHandleBalance

open CharBuffers Function GuardedRuns Option Tallies VfsHandles VfsModel VfsPasses Int

variable {N : Type}

def On (mnt : ℕ) (h : Handle N) : Prop := h.node.isSome = true ∧ h.mount = some mnt

instance (mnt : ℕ) : DecidablePred (On mnt : Handle N → Prop) := by
  intro h
  unfold On
  infer_instance

def openOn (s : Vfs N) (mnt : ℕ) : ℕ :=
  tally (On mnt) s.kernel maxKernelFiles + tally (On mnt) s.user s.maxFD

/-- Each count is what was there before and the handles that are open. -/
def Balanced (base : ℕ → ℕ) (s : Vfs N) : Prop := ∀ mnt, s.count mnt = base mnt + openOn s mnt

variable {base : ℕ → ℕ} {env : Env N} {s s' : Vfs N} {fd : ℤ} {slot : Slot} {node : N}
  {mode flags : BitVec 32} {path : Text}

theorem Balanced.nonneg (h : Balanced base s) (mnt : ℕ) : 0 ≤ s.count mnt := by
  rw [h mnt]
  omega

section Slots

def Inside (s : Vfs N) : Slot → Prop
  | .kernel i => i < maxKernelFiles
  | .user i => i < s.maxFD

theorem slotOf_inside (h : s.slotOf fd = some slot) : Inside s slot := by
  unfold Vfs.slotOf at h
  split_ifs at h <;> cases h <;> exact Nat.lt_of_not_ge ‹_›

theorem getHandle_spec (h : vfsGetHandle s fd = some slot) :
    s.slotOf fd = some slot ∧ Inside s slot ∧ (s.handle slot).node.isSome = true := by
  obtain ⟨hslot, hopen⟩ := filter_eq_some_iff.mp h
  exact ⟨hslot, slotOf_inside hslot, hopen⟩

variable {i mnt : ℕ} {h : Handle N} {count : Counts}

theorem slotOf_user (hi : i < s.maxFD) : s.slotOf i = some (.user i) := by
  have hflag := s.maxFD_le
  have hdiv : i / kernelFlag = 0 := Nat.div_eq_of_lt (by omega)
  unfold Vfs.slotOf
  rw [if_neg (by omega), toNat_natCast, hdiv, if_neg (by decide), if_neg (by omega)]

theorem slotOf_kernel (hi : i < maxKernelFiles) :
    s.slotOf (i + kernelFlag : ℕ) = some (.kernel i) := by
  have hlt : i < kernelFlag := Nat.lt_trans hi (by decide)
  have hpos : 0 < kernelFlag := by decide
  have hdiv : (i + kernelFlag) / kernelFlag = 1 := by
    rw [Nat.add_div_right i hpos, Nat.div_eq_of_lt hlt]
  have hmod : (i + kernelFlag) % kernelFlag = i := by
    rw [Nat.add_mod_right, Nat.mod_eq_of_lt hlt]
  unfold Vfs.slotOf
  rw [if_neg (by omega), toNat_natCast, hdiv, if_pos (by decide), hmod, if_neg (by omega)]

@[simp] theorem handle_setHandle (h : Handle N) : (s.setHandle slot h).handle slot = h := by
  cases slot <;> exact update_self ..

@[simp] theorem handle_withCount (count : Counts) (slot : Slot) :
    Vfs.handle { s with count := count } slot = s.handle slot := by
  cases slot <;> rfl

@[simp] theorem setHandle_count (h : Handle N) : (s.setHandle slot h).count = s.count := by
  cases slot <;> rfl

theorem handle_setHandle_of_ne {slot' : Slot} (hne : slot' ≠ slot) (h : Handle N) :
    (s.setHandle slot h).handle slot' = s.handle slot' := by
  cases slot with
  | kernel i =>
    cases slot' with
    | kernel j => exact update_of_ne (fun heq => hne (by rw [heq])) ..
    | user j => rfl
  | user i =>
    cases slot' with
    | kernel j => rfl
    | user j => exact update_of_ne (fun heq => hne (by rw [heq])) ..

theorem withCount_setHandle (count : Counts) (h : Handle N) :
    { s.setHandle slot h with count := count } = { s with count := count }.setHandle slot h := by
  cases slot <;> rfl

theorem setHandle_setHandle (h h' : Handle N) :
    (s.setHandle slot h).setHandle slot h' = s.setHandle slot h' := by
  cases slot <;> simp [Vfs.setHandle]

theorem slotOf_setHandle (h : Handle N) (fd : ℤ) :
    (s.setHandle slot h).slotOf fd = s.slotOf fd := by
  cases slot <;> rfl

theorem getHandle_setHandle (hslot : s.slotOf fd = some slot)
    (hopen : h.node.isSome = true) : vfsGetHandle (s.setHandle slot h) fd = some slot := by
  rw [vfsGetHandle, slotOf_setHandle, hslot, filter_some, handle_setHandle, if_pos hopen]

theorem openOn_setHandle (hinside : Inside s slot) (h : Handle N) (mnt : ℕ) :
    openOn (s.setHandle slot h) mnt + (if On mnt (s.handle slot) then 1 else 0) =
      openOn s mnt + if On mnt h then 1 else 0 := by
  cases slot with
  | kernel i =>
    have htally := tally_update (p := On mnt) (f := s.kernel) hinside h
    show _ + (if On mnt (s.kernel i) then 1 else 0) = _
    simp only [openOn, Vfs.setHandle]
    omega
  | user i =>
    have htally := tally_update (p := On mnt) (f := s.user) hinside h
    show _ + (if On mnt (s.user i) then 1 else 0) = _
    simp only [openOn, Vfs.setHandle]
    omega

theorem firstFree_spec {table : ℕ → Handle N} {n : ℕ} (h : firstFree table n = some i) :
    i < n ∧ (table i).node = none := by
  have hmem := List.mem_of_find?_eq_some h
  have hfree := List.find?_some h
  exact ⟨List.mem_range.mp hmem, isNone_iff_eq_none.mp hfree⟩

theorem not_on_free (hfree : h.node = none) : ¬ On mnt h := by
  rintro ⟨hsome, -⟩
  rw [hfree] at hsome
  cases hsome

theorem referenceMount_apply {node : Option N} {position : ℕ} (hopen : node.isSome = true)
    (count : Counts) (k : ℕ) :
    referenceMount count mnt k =
      count k + if On k (⟨node, some mnt, position, mode⟩ : Handle N) then 1 else 0 := by
  unfold referenceMount
  rw [update_apply]
  by_cases hk : k = mnt
  · rw [if_pos hk, if_pos ⟨hopen, by rw [hk]⟩, hk]
  · rw [if_neg hk, if_neg (fun hon => hk (some.inj hon.2).symm), add_zero]

theorem dereference_apply {count' : Counts}
    (hopen : h.node.isSome = true) (hmount : h.mount = some mnt)
    (hderef : dereferenceMount count mnt = some count') (k : ℕ) :
    count' k + (if On k h then 1 else 0) = count k := by
  obtain ⟨-, ⟨⟩⟩ := ite_none_right_eq_some.mp hderef
  rw [update_apply]
  by_cases hk : k = mnt
  · rw [if_pos hk, if_pos ⟨hopen, by rw [hmount, hk]⟩, hk]
    omega
  · rw [if_neg hk, if_neg, add_zero]
    rintro ⟨-, hon⟩
    rw [hmount] at hon
    exact hk (some.inj hon).symm

theorem balanced_setHandle (h : Balanced base s) (hinside : Inside s slot) {new : Handle N}
    (hcount : ∀ mnt, count mnt + (if On mnt (s.handle slot) then 1 else 0) =
      s.count mnt + if On mnt new then 1 else 0) :
    Balanced base ({ s with count := count }.setHandle slot new) := by
  intro mnt
  have hopen := openOn_setHandle (s := { s with count := count }) hinside new mnt
  have hchange := hcount mnt
  have hbefore := h mnt
  have hsame : openOn { s with count := count } mnt = openOn s mnt := rfl
  rw [hsame, handle_withCount] at hopen
  split at hopen <;> split at hopen <;> simp_all <;> omega

theorem allocHandle_spec (s : Vfs N) (isUser : Bool) (node : N) (mode : BitVec 32) :
    let free := if isUser then firstFree s.user s.maxFD else firstFree s.kernel maxKernelFiles
    (vfsAllocHandle s isUser node mode = (-1, s) ∧ free = none) ∨
    ∃ fd slot, 0 ≤ fd ∧ s.slotOf fd = some slot ∧ (s.handle slot).node = none ∧
      vfsAllocHandle s isUser node mode = (fd, s.setHandle slot
        { s.handle slot with node := some node, position := 0, mode := mode }) ∧ free ≠ none := by
  unfold vfsAllocHandle
  cases isUser with
  | true =>
    cases hfree : firstFree s.user s.maxFD with
    | none => exact .inl ⟨rfl, rfl⟩
    | some i =>
      obtain ⟨hi, hnode⟩ := firstFree_spec hfree
      exact .inr ⟨i, .user i, by omega, slotOf_user hi, hnode, rfl, by simp⟩
  | false =>
    cases hfree : firstFree s.kernel maxKernelFiles with
    | none => exact .inl ⟨rfl, rfl⟩
    | some i =>
      obtain ⟨hi, hnode⟩ := firstFree_spec hfree
      exact .inr ⟨(i + kernelFlag : ℕ), .kernel i, by omega, slotOf_kernel hi, hnode, rfl, by simp⟩

end Slots

def hold (count : Counts) : Option ℕ → Counts
  | none => count
  | some mnt => referenceMount count mnt

def holdTarget (count : Counts) : Option (N × Option ℕ) → Counts
  | none => count
  | some (_, mnt) => hold count mnt

theorem charge_found (count : Counts) (node : N) (truePath : List Char) (mnt : Option (Mount N)) :
    charge count (.found node truePath mnt) = hold count (mnt.map Mount.addr) := by
  cases mnt <;> rfl

theorem hold_nonneg {count : Counts} (h : ∀ mnt, 0 ≤ count mnt) (held : Option ℕ) (mnt : ℕ) :
    0 ≤ hold count held mnt := by
  cases held with
  | none => exact h mnt
  | some m =>
    have hm := h m
    show 0 ≤ update count m (count m + 1) mnt
    rw [update_apply]
    split
    · omega
    · exact h mnt

variable {count count' : Counts}

theorem createMissing_spec (hcount : ∀ mnt, 0 ≤ count mnt) {absPath : List Char}
    {created : Option (N × ℕ)} (h : createMissing env s count absPath = some (created, count')) :
    count' = hold count (created.map Prod.snd) := by
  obtain ⟨slash, -, h⟩ := bind_eq_some_iff.mp h
  obtain ⟨⟨parsed, count₁⟩, hparse, h⟩ := bind_eq_some_iff.mp h
  obtain rfl := vfsParsePath_charge hcount hparse
  cases parsed with
  | failed errno =>
    cases h
    rfl
  | found pnode truePath pmnt =>
    obtain ⟨mnt, rfl, h⟩ := bind_eq_some_iff.mp h
    have hheld : charge count (.found pnode truePath (some mnt)) = hold count (some mnt.addr) := rfl
    have hundo : dereferenceMount (hold count (some mnt.addr)) mnt.addr = some count :=
      dereference_reference (hcount mnt.addr)
    have hundo' := dereference_reference (hold_nonneg hcount (some mnt.addr) mnt.addr)
    simp only [hheld, hundo, hundo', map_some] at h
    repeat' split at h
    all_goals
      cases h
      rfl

variable {target : Option (N × Option ℕ)}

theorem followLast_spec (hcount : ∀ mnt, 0 ≤ count mnt) {mnt : Option ℕ}
    (h : followLast env s (hold count mnt) flags node mnt = some (target, count')) :
    count' = holdTarget count target := by
  unfold followLast at h
  split at h
  · cases h
    rfl
  cases mnt with
  | none =>
    repeat' split at h
    all_goals cases h
  | some mnt =>
    have hundo : dereferenceMount (hold count (some mnt)) mnt = some count :=
      dereference_reference (hcount mnt)
    simp only [bind_some, hundo, map_some] at h
    split at h
    · cases h
      rfl
    split at h
    · cases h
      rfl
    obtain ⟨⟨parsed, count₁⟩, hparse, h⟩ := map_eq_some_iff.mp h
    obtain rfl := vfsParsePath_charge hcount hparse
    cases parsed with
    | failed errno =>
      cases h
      rfl
    | found node' truePath mnt' =>
      cases h
      exact charge_found ..

theorem openTarget_spec (hcount : ∀ mnt, 0 ≤ s.count mnt)
    (h : openTarget env s path flags = some (target, count')) :
    count' = holdTarget s.count target := by
  obtain ⟨absPath, -, h⟩ := bind_eq_some_iff.mp h
  cases absPath with
  | none =>
    cases h
    rfl
  | some absPath =>
    obtain ⟨⟨parsed, count₁⟩, hparse, h⟩ := bind_eq_some_iff.mp h
    obtain rfl := vfsParsePath_charge hcount hparse
    cases parsed with
    | found node truePath mnt =>
      rw [charge_found] at h
      exact followLast_spec hcount h
    | failed errno =>
      dsimp only at h
      split at h
      · obtain ⟨⟨created, count₂⟩, hcreate, h⟩ := bind_eq_some_iff.mp h
        have hheld : count₂ = hold s.count (created.map Prod.snd) :=
          createMissing_spec hcount hcreate
        cases created with
        | none =>
          cases h
          exact hheld
        | some made =>
          rw [hheld] at h
          exact followLast_spec hcount h
      · cases h
        rfl

section

variable (env) (s) (node) (mode)

/-- The checks of `VFS_int_CreateHandle` pass: permission, node type, and a free slot. -/
def Creatable : Prop :=
  env.tree.checkACL s.who node (openPerms mode) = true ∧ env.tree.goodType node = true ∧
  (if has mode openflagUser then firstFree s.user s.maxFD
    else firstFree s.kernel maxKernelFiles) ≠ none

instance :
    Decidable (Creatable env s node mode) := by
  unfold Creatable
  infer_instance

end

variable {mnt : Option ℕ}

theorem createHandle_spec (h : vfsIntCreateHandle env s node mnt mode = some (fd, s')) :
    (¬ Creatable env s node mode ∧ fd = -1 ∧ s' = s) ∨
    (Creatable env s node mode ∧ 0 ≤ fd ∧ ∃ slot, s.slotOf fd = some slot ∧
      (s.handle slot).node = none ∧
      s' = s.setHandle slot ⟨some node, mnt, 0, mode⟩) := by
  unfold vfsIntCreateHandle at h
  unfold Creatable
  split at h
  case isTrue hacl =>
    cases h
    exact .inl ⟨fun hall => hacl hall.1, rfl, rfl⟩
  case isFalse hacl =>
    split at h
    case isTrue htype =>
      obtain ⟨-, -, heq⟩ := map_eq_some_iff.mp h
      cases heq
      exact .inl ⟨fun hall => htype hall.2.1, rfl, rfl⟩
    case isFalse htype =>
      rcases allocHandle_spec s (has mode openflagUser) node mode with
        ⟨halloc, hfull⟩ | ⟨fd', slot, hfd, hslot, hfree, halloc, hroom⟩
      · rw [halloc] at h
        cases h
        exact .inl ⟨fun hall => hall.2.2 hfull, rfl, rfl⟩
      rw [halloc] at h
      dsimp only at h
      rw [if_neg (by omega)] at h
      rw [getHandle_setHandle hslot rfl, map_some, handle_setHandle, setHandle_setHandle] at h
      cases h
      refine .inr ⟨⟨not_not.mp hacl, not_not.mp htype, hroom⟩, hfd, slot, hslot, hfree, rfl⟩

theorem createHandle_failed
    (h : vfsIntCreateHandle env s node mnt mode = some (-1, s')) : s' = s := by
  rcases createHandle_spec h with ⟨-, -, hsame⟩ | ⟨-, hfd, -⟩
  · exact hsame
  · omega

theorem not_balanced_held (h : Balanced base s) (mnt : ℕ) :
    ¬ Balanced base { s with count := referenceMount s.count mnt } := by
  intro hbal
  have hm : referenceMount s.count mnt mnt = base mnt + openOn s mnt := hbal mnt
  rw [referenceMount, update_self, h mnt] at hm
  omega

theorem createHandle_balanced (h : Balanced base s) (mnt : Option ℕ)
    (hcreate : vfsIntCreateHandle env { s with count := hold s.count mnt } node mnt mode =
      some (fd, s')) :
    Balanced base s' ↔ (mnt.isSome = true → Creatable env s node mode) := by
  rcases createHandle_spec hcreate with ⟨hfail, -, rfl⟩ | ⟨hpass, -, slot, hslot, hfree, rfl⟩
  · cases mnt with
    | none => exact ⟨fun _ hsome => (by cases hsome), fun _ => h⟩
    | some m => exact iff_of_false (not_balanced_held h m) fun hpass => hfail (hpass rfl)
  refine ⟨fun _ _ => hpass, fun _ => ?_⟩
  apply balanced_setHandle h (slotOf_inside hslot)
  intro k
  rw [handle_withCount] at hfree
  rw [if_neg (not_on_free hfree), add_zero]
  cases mnt with
  | none =>
    rw [if_neg (fun hon => by cases hon.2), add_zero]
    rfl
  | some m => exact referenceMount_apply rfl s.count k

inductive Call (N : Type) where
  | opens (env : Env N) (path : Text) (flags : BitVec 32)
  | openChild (env : Env N) (fd : ℤ) (name : List Char) (mode : BitVec 32)
  | openInode (env : Env N) (ident inode : ℕ) (mode : BitVec 32)
  | reopen (env : Env N) (fd : ℤ) (path : Text) (flags : BitVec 32)
  | duplicateFD (srcFD dstFD : ℤ)
  | close (fd : ℤ)
  | mkNod (env : Env N) (path : Text)

/-- The value returned (0 for `VFS_Close`) and the state after the call -/
def perform (s : Vfs N) : Call N → Option (ℤ × Vfs N)
  | .opens env path flags => vfsOpen env s path flags
  | .openChild env fd name mode => vfsOpenChild env s fd name mode
  | .openInode env ident inode mode => vfsOpenInode env s ident inode mode
  | .reopen env fd path flags => vfsReopen env s fd path flags
  | .duplicateFD srcFD dstFD => vfsDuplicateFD s srcFD dstFD
  | .close fd => (vfsClose s fd).map fun s => (0, s)
  | .mkNod env path => vfsMkNod env s path

def step (s : Vfs N) (call : Call N) : Option (Vfs N) := (perform s call).map Prod.snd

section

variable (env) (s)

def OpensCleanly (path : Text) (flags : BitVec 32) : Prop :=
  ∀ node mnt count, openTarget env s path flags = some (some (node, some mnt), count) →
    Creatable env s node flags

instance (path : Text) (flags : BitVec 32) :
    Decidable (OpensCleanly env s path flags) :=
  match h : openTarget env s path flags with
  | some (some (node, some _), _) =>
    decidable_of_iff (Creatable env s node flags) (by simp [OpensCleanly, h])
  | some (some (_, none), _) => isTrue (by simp [OpensCleanly, h])
  | some (none, _) => isTrue (by simp [OpensCleanly, h])
  | none => isTrue (by simp [OpensCleanly, h])

def ChildOpensCleanly (fd : ℤ) (name : List Char) (mode : BitVec 32) :
    Prop :=
  ∀ slot dir findDir node mnt, vfsGetHandle s fd = some slot → (s.handle slot).node = some dir →
    env.tree.directory dir = true → env.tree.findDir dir = some findDir →
    findDir name = some node → (s.handle slot).mount = some mnt → Creatable env s node mode

def childOf (fd : ℤ) (name : List Char) : Option (Slot × N) :=
  (vfsGetHandle s fd).bind fun slot => (s.handle slot).node.bind fun dir =>
    if env.tree.directory dir then
      (env.tree.findDir dir).bind fun findDir => (findDir name).map fun node => (slot, node)
    else none

def InodeOpensCleanly (ident inode : ℕ) (mode : BitVec 32) : Prop :=
  ∀ mnt, s.mounts.find? (fun mnt => mnt.identifier = ident) = some mnt →
    ∃ getNode node, env.tree.inode mnt.rootNode = some getNode ∧ getNode inode = some node ∧
      Creatable env s node mode

end

/-- No mount is held for a handle that cannot be made. -/
def Clean (s : Vfs N) : Call N → Prop
  | .opens env path flags => OpensCleanly env s path flags
  | .openChild env fd name mode => ChildOpensCleanly env s fd name mode
  | .openInode env ident inode mode => InodeOpensCleanly env s ident inode mode
  | .reopen env fd path flags => (vfsGetHandle s fd).isSome = true → OpensCleanly env s path flags
  | .duplicateFD _ _ | .close _ | .mkNod _ _ => True

section

variable {name : List Char}

theorem openChild_eq : vfsOpenChild env s fd name mode = (childOf env s fd name).elim (some (-1, s))
    fun (slot, node) => (s.handle slot).mount.bind fun mnt =>
      vfsIntCreateHandle env { s with count := referenceMount s.count mnt } node
        (some mnt) mode := by
  simp only [vfsOpenChild, childOf]
  cases vfsGetHandle s fd with
  | none => rfl
  | some slot =>
    cases hnode : (s.handle slot).node with
    | none => simp [hnode]
    | some dir => grind

theorem childOpensCleanly_iff : ChildOpensCleanly env s fd name mode ↔
    ∀ slot node mnt, childOf env s fd name = some (slot, node) → (s.handle slot).mount = some mnt →
      Creatable env s node mode := by
  simp only [ChildOpensCleanly, childOf, bind_eq_some_iff, map_eq_some_iff, ite_none_right_eq_some]
  grind

end

theorem open_cases (h : Balanced base s) (hopen : vfsOpen env s path flags = some (fd, s')) :
    (fd = -1 ∧ (Balanced base s' ↔ OpensCleanly env s path flags) ∧
      ∃ count, s' = { s with count := count }) ∨
    (0 ≤ fd ∧ Balanced base s' ∧ OpensCleanly env s path flags ∧ ∃ slot node mnt,
      s.slotOf fd = some slot ∧ (s.handle slot).node = none ∧
      s' = { s with count := hold s.count mnt }.setHandle slot ⟨some node, mnt, 0, flags⟩) := by
  obtain ⟨⟨target, count⟩, htarget, hopen⟩ := bind_eq_some_iff.mp hopen
  obtain rfl := openTarget_spec h.nonneg htarget
  cases target with
  | none =>
    cases hopen
    left
    refine ⟨rfl, ⟨fun _ => ?_, fun _ => h⟩, s.count, rfl⟩
    intro node mnt count heq
    cases htarget.symm.trans heq
  | some found =>
    obtain ⟨node, mnt⟩ := found
    have hclean : OpensCleanly env s path flags ↔
        (mnt.isSome = true → Creatable env s node flags) := by
      constructor
      · intro hclean hsome
        obtain ⟨m, rfl⟩ := isSome_iff_exists.mp hsome
        exact hclean node m _ htarget
      · intro hcreatable node' m count' heq
        cases htarget.symm.trans heq
        exact hcreatable rfl
    have hbal := createHandle_balanced h mnt hopen
    rcases createHandle_spec hopen with ⟨-, rfl, hsame⟩ | ⟨hpass, hfd, slot, hslot, hfree, rfl⟩
    · exact .inl ⟨rfl, hbal.trans hclean.symm, _, hsame⟩
    · exact .inr ⟨hfd, hbal.mpr fun _ => hpass, hclean.mpr fun _ => hpass,
        slot, node, mnt, hslot, hfree, rfl⟩

theorem open_succeeds_iff (hopen : vfsOpen env s path flags = some (fd, s')) :
    fd ≠ -1 ↔ ∃ node mnt count, openTarget env s path flags = some (some (node, mnt), count) ∧
      Creatable env s node flags := by
  obtain ⟨⟨target, count⟩, htarget, hopen⟩ := bind_eq_some_iff.mp hopen
  cases target with
  | none =>
    cases hopen
    refine iff_of_false (by omega) ?_
    rintro ⟨node, mnt, count', heq, -⟩
    cases htarget.symm.trans heq
  | some found =>
    obtain ⟨node, mnt⟩ := found
    rcases createHandle_spec hopen with ⟨hfail, rfl, -⟩ | ⟨hpass, hfd, -⟩
    · refine iff_of_false (by omega) ?_
      rintro ⟨node', mnt', count', heq, hpass⟩
      cases htarget.symm.trans heq
      exact hfail hpass
    · exact iff_of_true (by omega) ⟨node, mnt, count, htarget, hpass⟩

theorem close_balanced (h : Balanced base s) (hclose : vfsClose s fd = some s') :
    Balanced base s' := by
  unfold vfsClose at hclose
  split at hclose
  case h_1 =>
    cases hclose
    exact h
  case h_2 slot hget =>
    obtain ⟨-, hinside, hopen⟩ := getHandle_spec hget
    obtain ⟨count, hcount, rfl⟩ := map_eq_some_iff.mp hclose
    apply balanced_setHandle h hinside
    intro k
    have hclosed : ¬ On k ({ s.handle slot with node := none } : Handle N) := by
      apply not_on_free
      rfl
    rw [if_neg hclosed, add_zero]
    cases hmount : (s.handle slot).mount with
    | none =>
      rw [hmount] at hcount
      cases hcount
      rw [if_neg, add_zero]
      rintro ⟨-, hon⟩
      cases hmount.symm.trans hon
    | some mnt =>
      rw [hmount] at hcount
      exact dereference_apply hopen hmount hcount k

/-- The balance is kept if and only if the call was clean; a failed one changes counts only. -/
def Accounted (base : ℕ → ℕ) (s : Vfs N) (clean : Prop) (fd : ℤ) (s' : Vfs N) : Prop :=
  (Balanced base s' ↔ clean) ∧ (fd = -1 → ∃ count, s' = { s with count := count })

variable {dst : Slot} {mnt : ℕ} {src new : Handle N} {fd' : ℤ} {call : Call N}

section

variable (h : Balanced base s)
include h

theorem balanced_copy (hinside : Inside s dst)
    (hfree : (s.handle dst).node = none) (hopen : src.node.isSome = true)
    (hmount : src.mount = some mnt) :
    Balanced base ({ s with count := referenceMount s.count mnt }.setHandle dst src) := by
  apply balanced_setHandle h hinside
  intro k
  obtain ⟨node, mount, position, mode⟩ := src
  obtain rfl : mount = some mnt := hmount
  rw [if_neg (not_on_free hfree), add_zero]
  exact referenceMount_apply hopen s.count k

theorem balanced_copy_filled {dst' : Slot} (hslot : s.slotOf fd = some dst')
    (hfree : (s.handle dst').node = none)
    (hnew : new.node.isSome = true) (hopen : src.node.isSome = true) (hmount : src.mount = some mnt)
    (hget : vfsGetHandle { s.setHandle dst' new with
      count := referenceMount (s.setHandle dst' new).count mnt } fd = some dst) :
    Balanced base ({ s.setHandle dst' new with
      count := referenceMount (s.setHandle dst' new).count mnt }.setHandle dst src) := by
  rw [withCount_setHandle] at hget ⊢
  have hfilled := getHandle_setHandle
    (s := { s with count := referenceMount (s.setHandle dst' new).count mnt }) hslot hnew
  cases hfilled.symm.trans hget
  rw [setHandle_setHandle, setHandle_count]
  exact balanced_copy h (slotOf_inside hslot) hfree hopen hmount

theorem duplicateFD_balanced {srcFD dstFD : ℤ}
    (hdup : vfsDuplicateFD s srcFD dstFD = some (fd, s')) :
    Balanced base s' ∧ (fd = -1 → s' = s) := by
  unfold vfsDuplicateFD at hdup
  split at hdup
  case h_1 =>
    cases hdup
    exact ⟨h, fun _ => rfl⟩
  case h_2 slot hget =>
    dsimp only at hdup
    split at hdup
    case h_1 =>
      cases hdup
      exact ⟨h, fun _ => rfl⟩
    case h_2 node hnode =>
      have hopen : (s.handle slot).node.isSome = true := by rw [hnode]; rfl
      split at hdup
      case isTrue =>
        cases hdup
        exact ⟨h, fun _ => rfl⟩
      case isFalse htaken =>
        obtain ⟨mnt, hmount, hdup⟩ := bind_eq_some_iff.mp hdup
        obtain ⟨dst, hdst, heq⟩ := map_eq_some_iff.mp hdup
        cases heq
        -- the descriptor that is returned names a slot
        refine ⟨?_, fun hfd => ?_⟩
        · by_cases hany : dstFD = -1
          · rw [if_pos hany] at hdst ⊢
            rcases allocHandle_spec s (decide ¬ srcFD.toNat / kernelFlag % 2 = 1) node
              (s.handle slot).mode with ⟨halloc, -⟩ | ⟨fd', slot', -, hslot', hfree, halloc, -⟩
            · rw [halloc] at hdst
              cases hdst
            · rw [halloc] at hdst ⊢
              exact balanced_copy_filled h hslot' hfree rfl hopen hmount hdst
          · rw [if_neg hany] at hdst ⊢
            unfold vfsSetHandle at hdst ⊢
            cases hslot' : s.slotOf dstFD with
            | none =>
              rw [hslot'] at hdst
              obtain ⟨hnone, -⟩ := getHandle_spec hdst
              cases hslot'.symm.trans hnone
            | some slot' =>
              rw [hslot'] at hdst
              have hfree : (s.handle slot').node = none := by
                by_contra hsome
                apply htaken
                refine ⟨hany, ?_⟩
                rw [vfsGetHandle, hslot', filter_some, if_pos]
                · rfl
                · exact isSome_iff_ne_none.mpr hsome
              exact balanced_copy_filled h hslot' hfree rfl hopen hmount hdst
        · rw [hfd] at hdst
          cases hdst

theorem mkNod_unchanged (hmake : vfsMkNod env s path = some (fd, s')) : s' = s := by
  obtain ⟨absPath, -, hmake⟩ := bind_eq_some_iff.mp hmake
  obtain ⟨absPath, -, hmake⟩ := bind_eq_some_iff.mp hmake
  obtain ⟨⟨parsed, count⟩, hparse, hmake⟩ := bind_eq_some_iff.mp hmake
  obtain rfl := vfsParsePath_charge h.nonneg hparse
  cases parsed with
  | failed errno =>
    cases hmake
    rfl
  | found node truePath mnt =>
    obtain ⟨mnt, rfl, hmake⟩ := bind_eq_some_iff.mp hmake
    have hundo : dereferenceMount (charge s.count (.found node truePath (some mnt))) mnt.addr =
      some s.count := dereference_reference (h.nonneg mnt.addr)
    rw [hundo, map_some] at hmake
    dsimp only at hmake
    repeat' split at hmake
    all_goals
      cases hmake
      rfl

theorem refused {clean : Prop} (hclean : clean) : Accounted base s clean fd s :=
  ⟨iff_of_true h hclean, fun _ => ⟨s.count, rfl⟩⟩

theorem held_refused {clean : Prop} (hclean : ¬ clean) :
    Accounted base s clean fd { s with count := referenceMount s.count mnt } :=
  ⟨iff_of_false (not_balanced_held h mnt) hclean, fun _ => ⟨_, rfl⟩⟩

theorem held_created {clean : Prop} (hclean : Creatable env s node mode ↔ clean)
    (hcreate : vfsIntCreateHandle env { s with count := referenceMount s.count mnt } node (some mnt)
      mode = some (fd, s')) : Accounted base s clean fd s' := by
  refine ⟨(createHandle_balanced h (some mnt) hcreate).trans ?_, ?_⟩
  · simpa using hclean
  · rintro rfl
    exact ⟨_, createHandle_failed hcreate⟩

theorem openChild_accounted {name : List Char}
    (hopen : vfsOpenChild env s fd name mode = some (fd', s')) :
    Accounted base s (ChildOpensCleanly env s fd name mode) fd' s' := by
  rw [openChild_eq] at hopen
  rw [childOpensCleanly_iff]
  cases hchild : childOf env s fd name with
  | none =>
    rw [hchild] at hopen
    cases hopen
    exact refused h (by simp)
  | some child =>
    rw [hchild] at hopen
    obtain ⟨mnt, hmount, hopen⟩ := bind_eq_some_iff.mp hopen
    refine held_created h ⟨?_, fun hclean => hclean _ _ mnt rfl hmount⟩ hopen
    rintro hcreatable slot node mnt' ⟨⟩ -
    exact hcreatable

theorem openInode_accounted {ident inode : ℕ}
    (hopen : vfsOpenInode env s ident inode mode = some (fd, s')) :
    Accounted base s (InodeOpensCleanly env s ident inode mode) fd s' := by
  unfold vfsOpenInode at hopen
  unfold InodeOpensCleanly
  split at hopen
  case h_1 hfind =>
    cases hopen
    exact refused h fun mnt hmnt => (by simp [hfind] at hmnt)
  case h_2 mnt hfind =>
    split at hopen
    case h_1 hinode =>
      cases hopen
      refine held_refused h fun hclean => ?_
      obtain ⟨getNode, node, hget, -⟩ := hclean mnt hfind
      simp [hinode] at hget
    case h_2 getNode hinode =>
      split at hopen
      case h_1 hnode =>
        cases hopen
        refine held_refused h fun hclean => ?_
        obtain ⟨getNode', node, hget, hnode', -⟩ := hclean mnt hfind
        cases hinode.symm.trans hget
        simp [hnode] at hnode'
      case h_2 node hnode =>
        refine held_created h ⟨fun hcreatable mnt' hfind' => ?_, fun hclean => ?_⟩ hopen
        · cases hfind.symm.trans hfind'
          exact ⟨getNode, node, hinode, hnode, hcreatable⟩
        · obtain ⟨getNode', node', hget, hnode', hcreatable⟩ := hclean mnt hfind
          cases hinode.symm.trans hget
          cases hnode.symm.trans hnode'
          exact hcreatable

theorem balanced_replace (hinside : Inside s slot)
    (hopen : (s.handle slot).node.isSome = true) {old : ℕ}
    (hold : (s.handle slot).mount = some old) (hderef : dereferenceMount s.count old = some count)
    (hnew : new.node.isSome = true) (hmount : new.mount = some mnt) :
    Balanced base ({ s with count := referenceMount count mnt }.setHandle slot new) := by
  apply balanced_setHandle h hinside
  intro k
  have hback := dereference_apply hopen hold hderef k
  obtain ⟨node, mount, position, mode⟩ := new
  obtain rfl : mount = some mnt := hmount
  have hforth : referenceMount count mnt k =
      count k + if On k (⟨node, some mnt, position, mode⟩ : Handle N) then 1 else 0 :=
    referenceMount_apply hnew count k
  rw [hforth, ← hback]
  exact add_right_comm ..

theorem reopen_accounted (hreopen : vfsReopen env s fd path flags = some (fd', s')) :
    Accounted base s ((vfsGetHandle s fd).isSome = true → OpensCleanly env s path flags) fd'
      s' := by
  unfold vfsReopen at hreopen
  split at hreopen
  case h_1 hget =>
    cases hreopen
    exact refused h fun hsome => (by simp [hget] at hsome)
  case h_2 slot hget =>
    obtain ⟨hslot, hinside, hwasopen⟩ := getHandle_spec hget
    obtain ⟨⟨newf, s₁⟩, hopen, hreopen⟩ := bind_eq_some_iff.mp hreopen
    dsimp only at hreopen
    rcases open_cases h hopen with
      ⟨rfl, hiff, hsame⟩ | ⟨hfd, hbal, hclean, new, node, held, hnew, hfree, hstate⟩
    · cases hreopen
      simp [Accounted, hget, hiff, hsame]
    rw [if_neg (by omega)] at hreopen
    obtain ⟨old, hold, hreopen⟩ := bind_eq_some_iff.mp hreopen
    obtain ⟨count, hderef, hreopen⟩ := bind_eq_some_iff.mp hreopen
    obtain ⟨opened, hopened, hreopen⟩ := bind_eq_some_iff.mp hreopen
    obtain ⟨mnt, hmount, hreopen⟩ := bind_eq_some_iff.mp hreopen
    obtain ⟨s₂, hclose, heq⟩ := map_eq_some_iff.mp hreopen
    cases heq
    obtain ⟨-, -, hnode⟩ := getHandle_spec hopened
    have hne : slot ≠ new := by
      rintro rfl
      rw [hfree] at hwasopen
      cases hwasopen
    have hkept : s₁.handle slot = s.handle slot := by
      rw [hstate, handle_setHandle_of_ne hne, handle_withCount]
    have hslot₁ : s₁.slotOf fd = some slot := by
      rw [hstate, slotOf_setHandle]
      exact hslot
    have hreplaced := balanced_replace hbal (slotOf_inside hslot₁) (by rw [hkept]; exact hwasopen)
      hold hderef hnode hmount
    refine ⟨⟨fun _ _ => hclean, fun _ => close_balanced hreplaced hclose⟩, fun hfail => ?_⟩
    rw [hfail] at hslot
    cases hslot

theorem perform_accounted (hcall : perform s call = some (fd, s')) :
    Accounted base s (Clean s call) fd s' := by
  cases call with
  | opens env path flags =>
    rcases open_cases h hcall with ⟨-, hiff, hsame⟩ | ⟨hfd, hbal, hclean, -⟩
    · exact ⟨hiff, fun _ => hsame⟩
    · exact ⟨iff_of_true hbal hclean, fun hfail => by omega⟩
  | openChild env fd name mode => exact openChild_accounted h hcall
  | openInode env ident inode mode => exact openInode_accounted h hcall
  | reopen env fd path flags => exact reopen_accounted h hcall
  | duplicateFD srcFD dstFD =>
    obtain ⟨hbal, hsame⟩ := duplicateFD_balanced h hcall
    exact ⟨iff_of_true hbal trivial, fun hfail => ⟨s.count, hsame hfail⟩⟩
  | close fd =>
    obtain ⟨t, hclose, heq⟩ := map_eq_some_iff.mp hcall
    cases heq
    exact ⟨iff_of_true (close_balanced h hclose) trivial, fun hfail => (by cases hfail)⟩
  | mkNod env path =>
    obtain rfl := mkNod_unchanged h hcall
    exact refused h trivial

end

/-- A call returns with the balance kept, and if it returns -1, with every count as it was. -/
def Keeps (base : ℕ → ℕ) (s : Vfs N) (call : Call N) : Prop :=
  ∀ fd t, perform s call = some (fd, t) → Balanced base t ∧ (fd = -1 → t.count = s.count)

theorem counts_unique {t : Vfs N} (h : Balanced base s) (ht : Balanced base t)
    (hsame : t = { s with count := count }) : t.count = s.count := by
  funext mnt
  have hopen : openOn t mnt = openOn s mnt := by rw [hsame]; rfl
  rw [ht mnt, h mnt, hopen]

theorem step_eq_some (h : step s call = some s') : ∃ fd, perform s call = some (fd, s') := by
  obtain ⟨⟨fd, t⟩, hcall, rfl⟩ := map_eq_some_iff.mp h
  exact ⟨fd, hcall⟩

theorem keeps_iff_clean (h : Balanced base s) (hstep : step s call = some s') :
    Keeps base s call ↔ Clean s call := by
  obtain ⟨fd, hcall⟩ := step_eq_some hstep
  obtain ⟨hiff, hfailed⟩ := perform_accounted h hcall
  constructor
  · intro hkeeps
    exact hiff.mp (hkeeps fd s' hcall).1
  · intro hclean fd' t ht
    cases hcall.symm.trans ht
    have hbal := hiff.mpr hclean
    refine ⟨hbal, fun hfail => ?_⟩
    obtain ⟨count, hsame⟩ := hfailed hfail
    exact counts_unique h hbal hsame

/-- Calls keep the balance, and those that return -1 the counts, exactly if none holds a mount for a
handle that cannot be made. -/
theorem balance_kept_iff_clean (h : Balanced base s) {calls : List (Call N)}
    (hrun : run step s calls = some s') :
    Along step (Keeps base) s calls ↔ Along step Clean s calls := by
  apply run_along_congr _ _ h hrun
  · intro s call t hs hclean hstep
    obtain ⟨fd, hcall⟩ := step_eq_some hstep
    exact (perform_accounted hs hcall).1.mpr hclean
  · intro s call t hs hstep
    exact keeps_iff_clean hs hstep

def sampleTree : VfsModel.Tree ℕ where
  type node := some
    { findDir := some fun name => if node = 0 ∧ name = ['f'] then some 1 else none
      mkNod := none
      read := true }
  goodType _ := true
  symlink _ := false
  directory node := node == 0
  text _ := emptyText
  acls _ := []
  inode _ := none
  memFile _ := none

def sampleEnv : Env ℕ := ⟨sampleTree, fun _ => nul, fun _ => some fun _ => nul⟩

def sampleProcess (uid : BitVec 32) : Vfs ℕ where
  mounts := [sampleRoot]
  rootMount := some sampleRoot
  count _ := 0
  kernel _ := ⟨none, none, 0, 0⟩
  user _ := ⟨none, none, 0, 0⟩
  maxFD := 2
  maxFD_le := two_le_kernelFlag
  who := ⟨uid, 0⟩
  chroot := none
  cwd := none

def samplePath : Text := ⟨"/f".toList, by decide⟩

theorem samples_balanced (uid : BitVec 32) : Balanced (fun _ => 0) (sampleProcess uid) := by
  intro mnt
  have hkernel : tally (On mnt) (sampleProcess uid).kernel maxKernelFiles = 0 :=
    tally_eq_zero fun _ _ => not_on_free rfl
  have huser : tally (On mnt) (sampleProcess uid).user (sampleProcess uid).maxFD = 0 :=
    tally_eq_zero fun _ _ => not_on_free rfl
  rw [openOn, hkernel, huser]
  rfl

/-- The superuser opens `/f` and closes it. -/
theorem balance_kept_sample : Along step (Keeps fun _ => 0) (sampleProcess 0)
      [.opens sampleEnv samplePath (openflagRead ||| openflagUser), .close 0] := by
  obtain ⟨t, hrun⟩ := isSome_iff_exists.mp (show (run step (sampleProcess 0)
    [.opens sampleEnv samplePath (openflagRead ||| openflagUser), .close 0]).isSome = true by
      decide +kernel)
  apply (balance_kept_iff_clean (samples_balanced 0) hrun).mpr
  refine ⟨?_, fun _ _ => ⟨trivial, fun _ _ => trivial⟩⟩
  intro node mnt count htarget
  have hcreatable : (openTarget sampleEnv (sampleProcess 0) samplePath
      (openflagRead ||| openflagUser)).map (fun target => target.1.map Prod.fst) =
      some (some 1) := by decide +kernel
  rw [htarget] at hcreatable
  cases some.inj hcreatable
  decide +kernel

/-- User 1 may not read `/f`: `VFS_Open` returns -1 and the root mount stays held. -/
theorem refused_open_holds_mount :
    (vfsOpen sampleEnv (sampleProcess 1) samplePath (openflagRead ||| openflagUser)).map
      (fun result => (result.1, result.2.count 0, openOn result.2 0)) = some (-1, 1, 0) ∧
    (sampleProcess 1).count 0 = 0 ∧ openOn (sampleProcess 1) 0 = 0 := by
  decide +kernel

end VfsHandleBalance
