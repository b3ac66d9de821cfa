import Acess2.VfsHandleBalance
import Acess2.VfsMounts

/-! The mounts inside each mount against the open handle counts.
Mounting charges the mount that `VFS_ParsePath` finds, by the longest match. Unmounting gives back
to the first match in the list, which is another one as soon as mounts are nested. -/
namespace VfsMountTree

open CharBuffers Function GuardedRuns List Option VfsHandleBalance VfsHandles VfsModel VfsMounts
  VfsPasses

variable {N : Type}

def addresses (s : Mounts N) : List ℕ := s.vfs.mounts.map Mount.addr

def childCount (nodes : List ℕ) (parent : ℕ → Option ℕ) (p : ℕ) : ℕ :=
  nodes.countP fun a => parent a = some p

variable {nodes : List ℕ} {parent : ℕ → Option ℕ} {a p : ℕ}

theorem childCount_eq_zero_iff :
    childCount nodes parent p = 0 ↔ ∀ a ∈ nodes, parent a ≠ some p := by
  simp [childCount, countP_eq_zero]

theorem childCount_append (hnew : a ∉ nodes) (q : Option ℕ) :
    childCount (nodes ++ [a]) (update parent a q) p =
      childCount nodes parent p + if q = some p then 1 else 0 := by
  unfold childCount
  rw [countP_append, countP_singleton, update_self]
  congr 1
  · apply countP_congr
    intro b hb
    rw [update_of_ne]
    rintro rfl
    exact hnew hb
  · simp

theorem childCount_filter (hnodup : nodes.Nodup) (ha : a ∈ nodes) :
    childCount (nodes.filter fun b => b ≠ a) parent p + (if parent a = some p then 1 else 0) =
      childCount nodes parent p := by
  have hperm := perm_cons_erase ha
  have hfilter : nodes.erase a = nodes.filter fun b => b ≠ a := by
    rw [hnodup.erase_eq_filter]
    apply filter_congr
    intro b _
    rw [Bool.eq_iff_iff]
    simp
  unfold childCount
  rw [hperm.countP_eq, countP_cons, hfilter]
  simp

def inside (s : Mounts N) (addr : ℕ) : ℕ := childCount (addresses s) s.parent addr

/-- No handle is open, and each count is the mounts directly inside. -/
structure Accounted (s : Mounts N) : Prop where
  counted : ∀ addr, s.vfs.count addr = inside s addr
  distinct : (addresses s).Nodup
  parents : ∀ a ∈ addresses s, ∀ p ∈ s.parent a, p ∈ addresses s
  rooted : ∀ root ∈ s.vfs.rootMount, root ∈ s.vfs.mounts
  closed : ∀ addr, openOn s.vfs addr = 0

variable {s t : Mounts N}

theorem Accounted.balanced (h : Accounted s) : Balanced (inside s) s.vfs := by
  intro addr
  rw [h.counted addr, h.closed addr]
  rfl

theorem accounted_setCount_iff (h : Accounted s) (count : Counts) :
    Accounted (s.setCount count) ↔ count = s.vfs.count := by
  constructor
  · intro hs
    funext addr
    rw [h.counted addr]
    exact hs.counted addr
  · rintro rfl
    exact h

theorem counts_determined (hs : Accounted s) (ht : Accounted t)
    (haddresses : addresses t = addresses s) (hparents : t.parent = s.parent) :
    t.vfs.count = s.vfs.count := by
  funext addr
  rw [ht.counted, hs.counted, inside, inside, haddresses, hparents]

variable {env : Env N} {drivers : List (Driver N)} {vfs vfs' : Vfs N}
  {device mountPoint filesystem options : Text} {base : ℕ → ℕ}

section

variable (env) (vfs) (device)

def Openable : Prop :=
  ∃ node mnt count, openTarget env vfs device openflagRead = some (some (node, mnt), count) ∧
    Creatable env vfs node openflagRead

instance : Decidable (Openable env vfs device) :=
  match h : openTarget env vfs device openflagRead with
  | some (some (node, _), _) =>
    decidable_of_iff (Creatable env vfs node openflagRead) (by simp [Openable, h])
  | some (none, _) => isFalse (by simp [Openable, h])
  | none => isFalse (by simp [Openable, h])

end

section

variable (env) (drivers) (vfs) (device)

def DriverFound (filesystem : Text) :
    Prop :=
  if filesystem.val ≠ [] then (drivers.find? fun fs => fs.name = filesystem.val) ≠ none
  else Openable env vfs device ∧ bestDriver drivers none ≠ none

instance (filesystem : Text) :
    Decidable (DriverFound env drivers vfs device filesystem) := by
  unfold DriverFound
  infer_instance

end

structure SameMounts (vfs vfs' : Vfs N) : Prop where
  mounts : vfs'.mounts = vfs.mounts
  rootMount : vfs'.rootMount = vfs.rootMount
  who : vfs'.who = vfs.who
  opened : ∀ addr, openOn vfs' addr = openOn vfs addr

theorem sameMounts_openClose {flags : BitVec 32} {path : Text} {fd : ℤ} {opened : Vfs N}
    (h : Balanced base vfs) (hopen : vfsOpen env vfs path flags = some (fd, opened)) (hfd : fd ≠ -1)
    (hclose : vfsClose opened fd = some vfs') : SameMounts vfs vfs' := by
  rcases open_cases h hopen with ⟨rfl, -⟩ | ⟨-, -, -, slot, node, mnt, hslot, hfree, rfl⟩
  · exact absurd rfl hfd
  have hget := getHandle_setHandle (s := { vfs with count := hold vfs.count mnt }) hslot
    (h := ⟨some node, mnt, 0, flags⟩) rfl
  unfold vfsClose at hclose
  rw [hget] at hclose
  obtain ⟨count, -, rfl⟩ := map_eq_some_iff.mp hclose
  rw [withCount_setHandle, setHandle_setHandle]
  refine ⟨by cases slot <;> rfl, by cases slot <;> rfl, by cases slot <;> rfl, fun addr => ?_⟩
  have hset := openOn_setHandle (s := { vfs with count := count }) (slotOf_inside hslot)
    (⟨none, mnt, 0, flags⟩ : Handle N) addr
  rw [handle_withCount, if_neg (not_on_free hfree), if_neg (not_on_free rfl), Nat.add_zero,
    Nat.add_zero] at hset
  have hcount : openOn { vfs with count := count } addr = openOn vfs addr := rfl
  rw [handle_setHandle, ← hcount, ← hset]

theorem chooseDriver_spec (h : Balanced base vfs) {choice : Except Result (Driver N)}
    (hchoose : chooseDriver env drivers vfs device filesystem = some (choice, vfs')) :
    SameMounts vfs vfs' ∧
    (Balanced base vfs' ↔ (filesystem.val = [] → OpensCleanly env vfs device openflagRead)) ∧
    (choice.isOk = true ↔ DriverFound env drivers vfs device filesystem) ∧
    (choice.isOk = true → Balanced base vfs') := by
  unfold chooseDriver at hchoose
  unfold DriverFound
  by_cases hnamed : filesystem.val ≠ []
  · rw [if_pos hnamed] at hchoose
    rw [if_pos hnamed]
    split at hchoose
    case h_1 hfind | h_2 hfind =>
      cases hchoose
      refine ⟨⟨rfl, rfl, rfl, fun _ => rfl⟩, iff_of_true h fun hempty => absurd hempty hnamed, ?_⟩
      simp [hfind, Except.isOk, Except.toBool, h]
  rw [if_neg hnamed] at hchoose
  rw [if_neg hnamed]
  obtain ⟨⟨fd, opened⟩, hopen, hchoose⟩ := bind_eq_some_iff.mp hchoose
  have hsucceeds := open_succeeds_iff hopen
  dsimp only at hchoose
  by_cases hfd : fd = -1
  · rw [if_pos hfd] at hchoose
    cases hchoose
    have hfail := mt hsucceeds.mpr (not_not.mpr hfd)
    rcases open_cases h hopen with ⟨-, hclean, count, rfl⟩ | ⟨hpos, -⟩
    · refine ⟨⟨rfl, rfl, rfl, fun _ => rfl⟩, ?_, ?_⟩
      · rw [hclean]
        exact ⟨fun hall _ => hall, fun hall => hall (not_not.mp hnamed)⟩
      · exact ⟨iff_of_false Bool.false_ne_true fun hfound => hfail hfound.1,
          fun hok => absurd hok Bool.false_ne_true⟩
    · omega
  rw [if_neg hfd] at hchoose
  obtain ⟨closed, hclose, heq⟩ := map_eq_some_iff.mp hchoose
  have hsame := sameMounts_openClose h hopen hfd hclose
  rcases open_cases h hopen with ⟨hfail, -⟩ | ⟨-, hbal, hclean, -⟩
  · exact absurd hfail hfd
  have hclosed := close_balanced hbal hclose
  have hboth : Balanced base closed ↔
      (filesystem.val = [] → OpensCleanly env vfs device openflagRead) :=
    iff_of_true hclosed fun _ => hclean
  cases hbest : bestDriver drivers none with
  | none =>
    rw [hbest] at heq
    cases heq
    exact ⟨hsame, hboth, iff_of_false Bool.false_ne_true fun hfound => hfound.2 rfl,
      fun _ => hclosed⟩
  | some best =>
    rw [hbest] at heq
    cases heq
    exact ⟨hsame, hboth, iff_of_true rfl ⟨hsucceeds.mp hfd, some_ne_none _⟩, fun _ => hclosed⟩

theorem hold_apply (count : Counts) (parent : Option ℕ) (addr : ℕ) :
    hold count parent addr = count addr + if parent = some addr then 1 else 0 := by
  cases parent with
  | none => exact (Int.add_zero _).symm
  | some p =>
    show update count p (count p + 1) addr = _
    rw [update_apply]
    by_cases hp : addr = p
    · simp [hp]
    · simp [hp, Ne.symm hp]

theorem accounted_add (h : Accounted s) {parent : Option ℕ} {addr : ℕ} (hnew : addr ∉ addresses s)
    (hparent : ∀ p ∈ parent, p ∈ addresses s) (haddresses : addresses t = addresses s ++ [addr])
    (hparents : t.parent = update s.parent addr parent)
    (hcount : t.vfs.count = update (hold s.vfs.count parent) addr 0)
    (hrooted : ∀ root ∈ t.vfs.rootMount, root ∈ t.vfs.mounts)
    (hclosed : ∀ a, openOn t.vfs a = openOn s.vfs a) : Accounted t where
  counted a := by
    rw [hcount, inside, haddresses, hparents, childCount_append hnew, update_apply]
    by_cases ha : a = addr
    · have hzero : childCount (addresses s) s.parent a = 0 := by
        rw [childCount_eq_zero_iff, ha]
        intro b hb hp
        exact hnew (h.parents b hb addr hp)
      have hother : parent ≠ some a := by
        rintro rfl
        exact hnew (ha ▸ hparent a rfl)
      rw [if_pos ha, hzero, if_neg hother]
      rfl
    · rw [if_neg ha, hold_apply, h.counted a, inside]
      split <;> rfl
  distinct := by
    rw [haddresses, nodup_append]
    refine ⟨h.distinct, nodup_singleton _, ?_⟩
    rintro a ha b hb rfl
    obtain rfl := mem_singleton.mp hb
    exact hnew ha
  parents a ha p hp := by
    rw [haddresses, mem_append] at ha ⊢
    rw [hparents, update_apply] at hp
    left
    split at hp
    · exact hparent p hp
    · rcases ha with ha | ha
      · exact h.parents a ha p hp
      · exact absurd (mem_singleton.mp ha) ‹_›
  rooted := hrooted
  closed a := by rw [hclosed, h.closed]

variable {malloc : Option ℕ} {result : Result}

theorem addMount_spec (h : Accounted s) (parent : Option ℕ) {fs : Driver N}
    (hparent : ∀ p ∈ parent, p ∈ addresses s) (hfresh : ∀ addr ∈ malloc, addr ∉ addresses s)
    (hadd : addMount (s.setCount (hold s.vfs.count parent)) fs device mountPoint options malloc
      parent = some (result, t)) : Accounted t ∧ (result ≠ .ok → t = s) := by
  have hback : ∀ p, parent = some p →
      dereferenceMount (s.setCount (hold s.vfs.count parent)).vfs.count p = some s.vfs.count := by
    rintro p rfl
    exact dereference_reference (h.balanced.nonneg p)
  have hgiveUp : ∀ r, (parent.bind fun p =>
      (dereferenceMount (s.setCount (hold s.vfs.count parent)).vfs.count p).map fun count =>
        (Result.noMemory, (s.setCount (hold s.vfs.count parent)).setCount count)) = some r →
      r.2 = s := by
    intro r hr
    obtain ⟨p, hp, hr⟩ := bind_eq_some_iff.mp hr
    rw [hback p hp, map_some] at hr
    exact (some.inj hr) ▸ rfl
  unfold addMount at hadd
  split at hadd
  case h_1 =>
    obtain rfl : t = s := hgiveUp _ hadd
    exact ⟨h, fun _ => rfl⟩
  case h_2 addr =>
    have hnew := hfresh addr rfl
    split at hadd
    · cases hadd
    split at hadd
    case h_1 =>
      obtain rfl : t = s := hgiveUp _ hadd
      exact ⟨h, fun _ => rfl⟩
    case h_2 rootNode hinit =>
      cases hadd
      refine ⟨accounted_add h hnew hparent map_append rfl rfl ?_ (fun _ => rfl),
        fun hne => absurd rfl hne⟩
      intro root hroot
      obtain ⟨a, -, hfind⟩ := bind_eq_some_iff.mp hroot
      exact mem_of_find?_eq_some hfind

theorem accounted_sameMounts (h : Accounted s) (hsame : SameMounts s.vfs vfs') :
    Accounted { s with vfs := vfs' } ↔ Balanced (inside s) vfs' := by
  have haddresses : addresses { s with vfs := vfs' } = addresses s :=
    congrArg (map Mount.addr) hsame.mounts
  have hinside : ∀ addr, inside { s with vfs := vfs' } addr = inside s addr := by
    intro addr
    rw [inside, haddresses]
    rfl
  have hclosed : ∀ addr, openOn vfs' addr = 0 := fun addr =>
    (hsame.opened addr).trans (h.closed addr)
  constructor
  · intro hs addr
    rw [hs.counted addr, hinside, hclosed]
    rfl
  · intro hbal
    refine ⟨fun addr => ?_, ?_, ?_, ?_, hclosed⟩
    · have hcount := hbal addr
      rw [hclosed] at hcount
      rw [hinside]
      exact hcount
    · rw [haddresses]
      exact h.distinct
    · rw [haddresses]
      exact h.parents
    · show ∀ root ∈ vfs'.rootMount, root ∈ vfs'.mounts
      rw [hsame.rootMount, hsame.mounts]
      exact h.rooted

section

variable (env) (vfs) (mountPoint)

def NotOver : Prop :=
  ∀ node truePath mnt count, ¬ vfs.mounts.isEmpty →
    parsePath env vfs vfs.count mountPoint = some (.found node truePath (some mnt), count) →
      mnt.rootNode ≠ node

instance [DecidableEq N] :
    Decidable (NotOver env vfs mountPoint) :=
  match h : parsePath env vfs vfs.count mountPoint with
  | some (.found node _ (some mnt), _) =>
    decidable_of_iff (¬ vfs.mounts.isEmpty → mnt.rootNode ≠ node) (by
      constructor
      · intro hover node' truePath' mnt' count' hne hparse
        cases h.symm.trans hparse
        exact hover hne
      · intro hover hne
        exact hover node _ mnt _ hne h)
  | some (.found _ _ none, _) => isTrue (by simp [NotOver, h])
  | some (.failed _, _) => isTrue (by simp [NotOver, h])
  | none => isTrue (by simp [NotOver, h])

end

section

variable (env) (drivers) (vfs) (device)

def MountsCleanly
    (mountPoint filesystem : Text) : Prop :=
  (filesystem.val = [] → OpensCleanly env vfs device openflagRead) ∧
  (DriverFound env drivers vfs device filesystem → NotOver env vfs mountPoint)

instance [DecidableEq N]
    (mountPoint filesystem : Text) :
    Decidable (MountsCleanly env drivers vfs device mountPoint filesystem) := by
  unfold MountsCleanly
  infer_instance

end

theorem vfsMount_iff [DecidableEq N] (h : Accounted s)
    (hfresh : ∀ addr ∈ malloc, addr ∉ addresses s)
    (hmount : vfsMount env drivers s device mountPoint filesystem options malloc =
      some (result, t)) :
    (Accounted t ↔ MountsCleanly env drivers s.vfs device mountPoint filesystem) ∧
    (result ≠ .ok → Accounted t → t.vfs.count = s.vfs.count) := by
  obtain ⟨⟨choice, vfs'⟩, hchoose, hmount⟩ := bind_eq_some_iff.mp hmount
  obtain ⟨hsame, hbal, hfound, hok⟩ := chooseDriver_spec h.balanced hchoose
  have haddresses : addresses { s with vfs := vfs' } = addresses s :=
    congrArg (map Mount.addr) hsame.mounts
  have hchosen := accounted_sameMounts h hsame
  unfold MountsCleanly
  cases choice with
  | error failure =>
    cases hmount
    have hnone : ¬ DriverFound env drivers s.vfs device filesystem :=
      mt hfound.mpr Bool.false_ne_true
    refine ⟨?_, fun _ ht => counts_determined h ht haddresses rfl⟩
    rw [hchosen, hbal]
    exact ⟨fun hopens => ⟨hopens, fun hfound => absurd hfound hnone⟩, And.left⟩
  | ok fs =>
    have hs₁ := hchosen.mpr (hok rfl)
    have hcount : vfs'.count = s.vfs.count := counts_determined h hs₁ haddresses rfl
    have hclean : MountsCleanly env drivers s.vfs device mountPoint filesystem ↔
        NotOver env s.vfs mountPoint :=
      ⟨fun hclean => hclean.2 (hfound.mp rfl), fun hover => ⟨hbal.mp (hok rfl), fun _ => hover⟩⟩
    have hfresh₁ : ∀ addr ∈ malloc, addr ∉ addresses { s with vfs := vfs' } := by
      rw [haddresses]
      exact hfresh
    rw [MountsCleanly] at hclean
    rw [hclean]
    dsimp only at hmount
    split at hmount
    case isTrue hempty =>
      have hadded := addMount_spec hs₁ none (fun p hp => (by cases hp)) hfresh₁ hmount
      refine ⟨iff_of_true hadded.1 ?_, fun hne _ => ?_⟩
      · intro node truePath mnt count hne
        rw [hsame.mounts] at hempty
        exact absurd hempty hne
      · rw [hadded.2 hne]
        exact hcount
    case isFalse hnonempty =>
      obtain ⟨⟨parsed, count⟩, hparse, hmount⟩ := bind_eq_some_iff.mp hmount
      have hsees : parsePath env vfs' vfs'.count mountPoint =
          parsePath env s.vfs s.vfs.count mountPoint := by
        rw [parsePath, parsePath, hsame.mounts, hsame.rootMount, hsame.who, hcount]
      obtain rfl := vfsParsePath_charge hs₁.balanced.nonneg hparse
      cases parsed with
      | failed errno =>
        cases hmount
        refine ⟨iff_of_true hs₁ ?_, fun _ _ => hcount⟩
        intro node truePath mnt count _ hfind
        rw [← hsees, hparse] at hfind
        cases hfind
      | found node truePath parent =>
        obtain ⟨mnt, rfl, hmount⟩ := bind_eq_some_iff.mp hmount
        have hmem : mnt ∈ vfs'.mounts :=
          vfsParsePath_found_mem hs₁.balanced.nonneg hs₁.rooted hparse
        split at hmount
        case isTrue hover =>
          cases hmount
          have hleak : ¬ Accounted (({ s with vfs := vfs' } : Mounts N).setCount
              (charge vfs'.count (.found node truePath (some mnt)))) := by
            rw [accounted_setCount_iff hs₁]
            intro hsameCount
            have hcharged : update vfs'.count mnt.addr (vfs'.count mnt.addr + 1) mnt.addr =
              vfs'.count mnt.addr := congrFun hsameCount mnt.addr
            rw [update_self] at hcharged
            omega
          refine ⟨iff_of_false hleak ?_, fun _ ht => absurd ht hleak⟩
          intro hnotover
          refine hnotover node truePath mnt _ ?_ (hsees ▸ hparse) hover
          rw [← hsame.mounts]
          exact hnonempty
        case isFalse hnotover =>
          have hadded := addMount_spec hs₁ (some mnt.addr)
            (fun p hp => (by cases hp; exact mem_map_of_mem hmem)) hfresh₁ hmount
          refine ⟨iff_of_true hadded.1 ?_, fun hne _ => ?_⟩
          · intro node' truePath' mnt' count _ hfind
            rw [← hsees, hparse] at hfind
            cases hfind
            exact hnotover
          · rw [hadded.2 hne]
            exact hcount

variable {mnt : Mount N}

section

variable (s) (mnt)

def givesBackTo : Option ℕ :=
  if s.root = some mnt.addr then none
  else (firstMatch (s.vfs.mounts.filter fun m => m.addr ≠ mnt.addr) mnt).map Mount.addr

def Matched : Prop := givesBackTo s mnt = s.parent mnt.addr

instance : Decidable (Matched s mnt) := by
  unfold Matched
  infer_instance

end

def OnlyChildless (s t : Mounts N) : Prop :=
  ∀ mnt ∈ s.vfs.mounts, mnt.addr ∉ addresses t → inside s mnt.addr = 0

structure Removed (s : Mounts N) (mnt : Mount N) (t : Mounts N) : Prop where
  addresses : addresses t = (addresses s).filter fun a => a ≠ mnt.addr
  parent : t.parent = s.parent
  rooted : ∀ root ∈ t.vfs.rootMount, root ∈ t.vfs.mounts
  opened : ∀ addr, openOn t.vfs addr = openOn s.vfs addr
  count : ∀ addr, t.vfs.count addr + (if givesBackTo s mnt = some addr then 1 else 0) =
    s.vfs.count addr

theorem vfsIntUnmount_spec (h : vfsIntUnmount s mnt = some t) :
    ∃ count, t = s.setCount count ∧ ∀ addr, count addr + (if (if s.root = some mnt.addr then none
      else (firstMatch s.vfs.mounts mnt).map Mount.addr) = some addr then 1 else 0) =
        s.vfs.count addr := by
  unfold vfsIntUnmount at h
  split at h
  case isTrue hroot =>
    cases h
    exact ⟨_, rfl, fun addr => by simp [hroot]⟩
  case isFalse hroot =>
    split at h
    case h_1 hmatch =>
      cases h
      exact ⟨_, rfl, fun addr => by simp [hmatch]⟩
    case h_2 mpmnt hmatch =>
      obtain ⟨count, hderef, rfl⟩ := map_eq_some_iff.mp h
      obtain ⟨-, ⟨⟩⟩ := ite_none_right_eq_some.mp hderef
      refine ⟨_, rfl, fun addr => ?_⟩
      by_cases haddr : addr = mpmnt.addr
      · simp [hroot, hmatch, haddr]
      · simp [hroot, hmatch, haddr, Ne.symm haddr]

theorem removeMount_spec (hremove : removeMount s mnt = some t) : Removed s mnt t := by
  have haddresses : (s.vfs.mounts.filter fun m => m.addr ≠ mnt.addr).map Mount.addr =
      (addresses s).filter fun a => a ≠ mnt.addr := by
    rw [addresses, List.filter_map]
    rfl
  obtain ⟨count, rfl, hcount⟩ := vfsIntUnmount_spec hremove
  refine ⟨haddresses, rfl, fun root hroot => ?_, fun _ => rfl, hcount⟩
  obtain ⟨a, -, hfind⟩ := bind_eq_some_iff.mp hroot
  exact mem_of_find?_eq_some hfind

/-- Removing a mount with count 0 keeps the accounts exactly if the right one is given back to. -/
theorem removeMount_iff (h : Accounted s) (hmem : mnt ∈ s.vfs.mounts)
    (hzero : s.vfs.count mnt.addr = 0) (hremove : removeMount s mnt = some t) :
    (Accounted t ↔ Matched s mnt) ∧ OnlyChildless s t := by
  have hremoved := removeMount_spec hremove
  have hlive : mnt.addr ∈ addresses s := mem_map_of_mem hmem
  have hempty : inside s mnt.addr = 0 := by
    have hcount := h.counted mnt.addr
    omega
  have hinside : ∀ addr, inside t addr + (if s.parent mnt.addr = some addr then 1 else 0) =
      inside s addr := by
    intro addr
    rw [inside, hremoved.addresses, hremoved.parent]
    exact childCount_filter h.distinct hlive
  refine ⟨⟨fun ht => ?_, fun hmatched => ?_⟩, ?_⟩
  · apply ext
    intro addr
    have hbefore := h.counted addr
    have hafter := ht.counted addr
    have hgiven := hremoved.count addr
    have hleft := hinside addr
    split at hgiven <;> split at hleft
    · exact iff_of_true ‹_› ‹_›
    · omega
    · omega
    · exact iff_of_false ‹_› ‹_›
  · refine ⟨fun addr => ?_, ?_, ?_, hremoved.rooted, fun addr => ?_⟩
    · have hbefore := h.counted addr
      have hgiven := hremoved.count addr
      have hleft := hinside addr
      rw [hmatched] at hgiven
      split_ifs at hgiven hleft <;> omega
    · rw [hremoved.addresses]
      exact h.distinct.filter _
    · rw [hremoved.addresses, hremoved.parent]
      intro a ha p hp
      have hne : p ≠ mnt.addr := by
        rintro rfl
        exact childCount_eq_zero_iff.mp hempty a (mem_of_mem_filter ha) hp
      exact mem_filter.mpr ⟨h.parents a (mem_of_mem_filter ha) p hp, by simpa using hne⟩
    · rw [hremoved.opened, h.closed]
  · intro m hm hgone
    rw [hremoved.addresses, mem_filter] at hgone
    by_cases hsame : m.addr = mnt.addr
    · rw [hsame]
      exact hempty
    · exact absurd ⟨mem_map_of_mem hm, by simpa using hsame⟩ hgone

theorem onlyChildless_refl (s : Mounts N) : OnlyChildless s s :=
  fun _ hmem hgone => absurd (mem_map_of_mem hmem) hgone

theorem removeMount_found (h : Accounted s) {p : Mount N → Bool} {idle : Mount N → Prop}
    (hfind : s.vfs.mounts.find? p = some mnt) (hidle : idle mnt)
    (hzero : s.vfs.count mnt.addr = 0) (hremove : removeMount s mnt = some t) :
    (Accounted t ↔ ∀ m ∈ s.vfs.mounts.find? p, idle m → Matched s m) ∧ OnlyChildless s t := by
  obtain ⟨hiff, hchildless⟩ := removeMount_iff h (mem_of_find?_eq_some hfind) hzero hremove
  refine ⟨hiff.trans ⟨fun hmatched m hm _ => ?_, fun hall => hall mnt hfind hidle⟩, hchildless⟩
  cases hfind.symm.trans hm
  exact hmatched

theorem vfsUnmount_iff (h : Accounted s) {path : Text} {result : Option Errno}
    (hunmount : vfsUnmount s path = some (result, t)) :
    (Accounted t ↔ ∀ mnt ∈ s.vfs.mounts.find? fun mnt => mnt.mountPoint = path,
      s.vfs.count mnt.addr = 0 → Matched s mnt) ∧ OnlyChildless s t := by
  unfold vfsUnmount at hunmount
  split at hunmount
  case h_1 hfind =>
    cases hunmount
    exact ⟨iff_of_true h (by simp [hfind]), onlyChildless_refl s⟩
  case h_2 mnt hfind =>
    split at hunmount
    case isTrue hbusy =>
      cases hunmount
      exact ⟨iff_of_true h (by simp [hfind, hbusy]), onlyChildless_refl s⟩
    case isFalse hidle =>
      obtain ⟨t', hremove, heq⟩ := map_eq_some_iff.mp hunmount
      cases heq
      exact removeMount_found h hfind (not_not.mp hidle) (not_not.mp hidle) hremove

/-- The round of `VFS_UnmountAll` for an address gives back to the right mount, if to any. -/
def RoundMatched (s : Mounts N) (addr : ℕ) : Prop :=
  ∀ mnt ∈ s.vfs.mounts.find? fun mnt => mnt.addr = addr, s.vfs.count addr = 0 → Matched s mnt

instance (s : Mounts N) : DecidablePred (RoundMatched s) := by
  intro addr
  unfold RoundMatched
  infer_instance

theorem unmountOne_iff (h : Accounted s) {addr : ℕ} (hround : unmountOne s addr = some t) :
    (Accounted t ↔ RoundMatched s addr) ∧ OnlyChildless s t := by
  unfold unmountOne at hround
  unfold RoundMatched
  split at hround
  case h_1 hfind =>
    cases hround
    exact ⟨iff_of_true h (by simp [hfind]), onlyChildless_refl s⟩
  case h_2 mnt hfind =>
    split at hround
    · cases hround
    split at hround
    case isTrue hbusy =>
      cases hround
      exact ⟨iff_of_true h fun _ _ hzero => (by omega), onlyChildless_refl s⟩
    case isFalse hneg hidle =>
      have haddr : mnt.addr = addr := by simpa using find?_some hfind
      have hzero : s.vfs.count addr = 0 := by omega
      exact removeMount_found h hfind hzero (haddr ▸ hzero) hround

variable [DecidableEq N]

/-- A call; `malloc` is the block that it is given for a mount. -/
inductive Op (N : Type) where
  | mount (env : Env N) (drivers : List (Driver N)) (device mountPoint filesystem options : Text)
    (malloc : Option ℕ)
  | unmount (path : Text)
  | unmountAll

/-- `malloc` does not give out a block in use. -/
def step (s : Mounts N) : Op N → Option (Mounts N)
  | .mount env drivers device mountPoint filesystem options malloc =>
    if malloc.any fun addr => addr ∈ addresses s then none
    else (vfsMount env drivers s device mountPoint filesystem options malloc).map Prod.snd
  | .unmount path => (vfsUnmount s path).map Prod.snd
  | .unmountAll => (vfsUnmountAll s).map Prod.snd

/-- The accounts are right after the call, and every round of `VFS_UnmountAll`; only mounts with
nothing inside are removed; and a `VFS_Mount` that fails leaves the counts. -/
def Keeps (s : Mounts N) : Op N → Prop
  | .mount env drivers device mountPoint filesystem options malloc =>
    ∀ result t, vfsMount env drivers s device mountPoint filesystem options malloc =
      some (result, t) →
      Accounted t ∧ (result ≠ .ok → t.vfs.count = s.vfs.count)
  | .unmount path => ∀ result t, vfsUnmount s path = some (result, t) →
      Accounted t ∧ OnlyChildless s t
  | .unmountAll =>
    Along unmountOne
      (fun u addr => ∀ v, unmountOne u addr = some v → Accounted v ∧ OnlyChildless u v)
      s (addresses s)

/-- Nothing leaks while mounting, and what is unmounted gives back to the mount charged for it. -/
def Straight (s : Mounts N) : Op N → Prop
  | .mount env drivers device mountPoint filesystem _ _ =>
    MountsCleanly env drivers s.vfs device mountPoint filesystem
  | .unmount path =>
    ∀ mnt ∈ s.vfs.mounts.find? fun mnt => mnt.mountPoint = path,
      s.vfs.count mnt.addr = 0 → Matched s mnt
  | .unmountAll => Along unmountOne RoundMatched s (addresses s)

instance (s : Mounts N) : DecidablePred (Straight s) := by
  intro op
  cases op <;> unfold Straight <;> infer_instance

omit [DecidableEq N] in
theorem unmountAll_run {result : ℤ} (hall : vfsUnmountAll s = some (result, t)) :
    run unmountOne s (addresses s) = some t := by
  unfold vfsUnmountAll at hall
  split at hall
  case isTrue hempty =>
    cases hall
    rw [addresses, isEmpty_iff.mp hempty]
    rfl
  case isFalse =>
    obtain ⟨t', hrun, heq⟩ := map_eq_some_iff.mp hall
    cases heq
    exact hrun

theorem step_spec (h : Accounted s) {op : Op N} (hstep : step s op = some t) :
    (Keeps s op ↔ Straight s op) ∧ (Straight s op → Accounted t) := by
  cases op with
  | mount env drivers device mountPoint filesystem options malloc =>
    rw [step] at hstep
    split at hstep
    case isTrue => cases hstep
    case isFalse hused =>
      have hfresh : ∀ addr ∈ malloc, addr ∉ addresses s := by
        rintro addr hmalloc hmem
        apply hused
        rw [mem_def.mp hmalloc]
        simpa using hmem
      obtain ⟨⟨result, t'⟩, hmount, rfl⟩ := map_eq_some_iff.mp hstep
      obtain ⟨hiff, hfailed⟩ := vfsMount_iff h hfresh hmount
      refine ⟨⟨fun hkeeps => hiff.mp (hkeeps result t' hmount).1, fun hclean => ?_⟩, hiff.mpr⟩
      intro result' u hmount'
      cases hmount.symm.trans hmount'
      exact ⟨hiff.mpr hclean, fun hne => hfailed hne (hiff.mpr hclean)⟩
  | unmount path =>
    obtain ⟨⟨result, t'⟩, hunmount, rfl⟩ := map_eq_some_iff.mp hstep
    obtain ⟨hiff, hchildless⟩ := vfsUnmount_iff h hunmount
    refine ⟨⟨fun hkeeps => hiff.mp (hkeeps result t' hunmount).1, fun hmatched => ?_⟩, hiff.mpr⟩
    intro result' u hunmount'
    cases hunmount.symm.trans hunmount'
    exact ⟨hiff.mpr hmatched, hchildless⟩
  | unmountAll =>
    obtain ⟨⟨result, t'⟩, hall, rfl⟩ := map_eq_some_iff.mp hstep
    have hrun := unmountAll_run hall
    have hround : ∀ (u : Mounts N) addr v, Accounted u → RoundMatched u addr →
        unmountOne u addr = some v → Accounted v :=
      fun u addr v hu hmatched hone => (unmountOne_iff hu hone).1.mpr hmatched
    constructor
    · apply run_along_congr hround _ h hrun
      intro u addr v hu hone
      obtain ⟨hiff, hchildless⟩ := unmountOne_iff hu hone
      refine ⟨fun hkeeps => hiff.mp (hkeeps v hone).1, fun hmatched v' hone' => ?_⟩
      cases hone.symm.trans hone'
      exact ⟨hiff.mpr hmatched, hchildless⟩
    · intro hmatched
      exact run_invariant hround h hmatched hrun

/-- Accounts are kept exactly if nothing leaks and every mount gives back where it was charged. -/
theorem accounts_kept_iff_straight (h : Accounted s) {ops : List (Op N)}
    (hrun : run step s ops = some t) :
    Along step Keeps s ops ↔ Along step Straight s ops := by
  apply run_along_congr _ _ h hrun
  · intro s op u hs hstraight hstep
    exact (step_spec hs hstep).2 hstraight
  · intro s op u hs hstep
    exact (step_spec hs hstep).1

/-- The root filesystem (root 0) has a directory `a`, and that on device `1` (root 10) a
directory `b`. -/
def sampleTree : VfsModel.Tree ℕ where
  type node := some
    { findDir := some fun name =>
        if node = 0 ∧ name = ['a'] then some 1
        else if node = 10 ∧ name = ['b'] then some 11 else none
      mkNod := none
      read := true }
  goodType _ := true
  symlink _ := false
  directory _ := true
  text _ := emptyText
  acls _ := []
  inode _ := none
  memFile _ := none

def sampleEnv : Env ℕ := ⟨sampleTree, fun _ => nul, fun _ => none⟩

def sampleDriver : Driver ℕ where
  name := ['f']
  detect := none
  initDevice device _ :=
    if device = ['0'] then some 0 else if device = ['1'] then some 10
    else if device = ['2'] then some 20 else none

def sampleBoot : Mounts ℕ where
  vfs :=
    { mounts := []
      rootMount := none
      count := fun _ => 0
      kernel := fun _ => ⟨none, none, 0, 0⟩
      user := fun _ => ⟨none, none, 0, 0⟩
      maxFD := 0
      maxFD_le := by decide
      who := ⟨0, 0⟩
      chroot := none
      cwd := none }
  root := none
  nextIdent := 1
  parent _ := none

theorem sampleBoot_accounted : Accounted sampleBoot where
  counted _ := rfl
  distinct := nodup_nil
  parents a ha := (by cases ha)
  rooted root hroot := (by cases hroot)
  closed addr := by
    have hkernel : Tallies.tally (On addr) sampleBoot.vfs.kernel maxKernelFiles = 0 :=
      Tallies.tally_eq_zero fun _ _ => not_on_free rfl
    rw [openOn, hkernel]
    rfl

def mountSample (device path : Text) (addr : ℕ) : Op ℕ :=
  .mount sampleEnv [sampleDriver] device path ⟨['f'], by decide⟩ emptyText (some addr)

def mountRoot : Op ℕ := mountSample ⟨['0'], by decide⟩ ⟨"/".toList, by decide⟩ 100
def mountA : Op ℕ := mountSample ⟨['1'], by decide⟩ ⟨"/a".toList, by decide⟩ 101
def mountAB : Op ℕ := mountSample ⟨['2'], by decide⟩ ⟨"/a/b".toList, by decide⟩ 102

/-- `/a` is mounted and unmounted, and then everything. -/
theorem flat_mounts_are_accounted :
    Along step Keeps sampleBoot [mountRoot, mountA, .unmount ⟨"/a".toList, by decide⟩, mountA,
      .unmountAll] := by
  obtain ⟨t, hrun⟩ := isSome_iff_exists.mp (show (run step sampleBoot
    [mountRoot, mountA, .unmount ⟨"/a".toList, by decide⟩, mountA, .unmountAll]).isSome = true by
      decide +kernel)
  exact (accounts_kept_iff_straight sampleBoot_accounted hrun).mpr (by decide +kernel)

/-- Unmounting `/a/b` gives back to the root mount, which can then be unmounted under `/a`. -/
theorem root_removed_under_mount :
    (run step sampleBoot [mountRoot, mountA, mountAB, .unmount ⟨"/a/b".toList, by decide⟩]).map
      (fun s => (addresses s, s.vfs.count 100, inside s 100, s.vfs.count 101, inside s 101)) =
        some ([100, 101], 0, 1, 1, 0) ∧
    (run step sampleBoot [mountRoot, mountA, mountAB, .unmount ⟨"/a/b".toList, by decide⟩,
      .unmount ⟨"/".toList, by decide⟩]).map (fun s => (addresses s, s.parent 101)) =
        some ([101], some 100) := by
  decide +kernel

end VfsMountTree
