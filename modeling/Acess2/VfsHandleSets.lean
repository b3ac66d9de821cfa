import Acess2.VfsHandleBalance

/-! Whole sets of handles (`vfs/handle.c`): a clone refers to the handles of its parent, sets are
saved, restored and freed, and the handles of a process are closed when it ends. -/
namespace VfsHandleSets

open Function GuardedRuns Option Tallies VfsHandleBalance VfsHandles VfsModel Nat Finset Int

variable {N : Type}

/-- The block of a saved set: `filled` handles have been written, and behind them is what `malloc`
left there. -/
structure Saved (N : Type) where
  filled : ℕ
  entries : ℕ → Handle N

/-- All processes. `MaxFD` is set once, and so many handles lie in one page; of a live process
`procs` says what is in that page, if it is mapped. Saved sets are numbered as they are made. -/
structure System (N : Type) where
  maxFD : ℕ
  count : Counts
  procs : ℕ → Option (Option (ℕ → Handle N))
  nextPID : ℕ
  saved : ℕ → Option (Saved N)
  nextSaved : ℕ

def cleared : Handle N := ⟨none, none, 0, 0⟩

def eachOpen (f : Counts → ℕ → Option Counts) (h : ℕ → Handle N) : ℕ → Counts → Option Counts
  | 0, count => some count
  | n + 1, count =>
    (eachOpen f h n count).bind fun count =>
      if (h n).node.isNone then some count else (h n).mount.bind (f count)

def increment (count : Counts) (mnt : ℕ) : Option Counts := some (referenceMount count mnt)

/-- `h->Mount->OpenHandleCount --`, without an assertion -/
def decrement (count : Counts) (mnt : ℕ) : Option Counts :=
  some (update count mnt (count mnt - 1))

variable (maxFD : ℕ) (handles : Option (ℕ → Handle N)) (count : Counts)

def vfsReferenceUserHandles : Option Counts :=
  match handles with
  | none => some count
  | some h => eachOpen increment h maxFD count

/-- `VFS_CloseAllUserHandles`; the counts are not touched. -/
def vfsCloseAllUserHandles : Option (ℕ → Handle N) :=
  handles.map fun h i => if i < maxFD then { h i with node := none } else h i

/-- The handles named by `FDs`; a descriptor that is not open ends the loop. -/
def copyHandles (h : ℕ → Handle N) (fds : ℕ → ℤ) : ℕ → (ℕ → Handle N) → Option (ℕ → Handle N)
  | 0, ret => some ret
  | n + 1, ret =>
    (copyHandles h fds n ret).bind fun ret =>
      if fds n < -1 then some (update ret n cleared)
      else
        let fd := (fds n % kernelFlag).toNat
        if fd ≥ maxFD ∨ (h fd).node.isNone then none else some (update ret n (h fd))

/-- `VFS_SaveHandles`, with the block that `malloc` gives -/
def vfsSaveHandles (numFDs : ℕ) (fds : Option (ℕ → ℤ)) (malloc : Option (ℕ → Handle N)) :
    Option (Option (Saved N) × Counts) :=
  match handles, malloc with
  | none, _ => some (none, count)
  | some _, none => some (none, count)
  | some h, some ret =>
    let numFDs := min numFDs maxFD
    let copied :=
      match fds with
      | none => some fun i => if i < numFDs then h i else ret i
      | some fds => copyHandles maxFD h fds numFDs ret
    match copied with
    | none => some (none, count)
    | some ret => (eachOpen increment ret numFDs count).map fun count => (some ⟨numFDs, ret⟩, count)

/-- The end of `VFS_RestoreHandles`: `memcpy`, the new references, and the slots behind -/
def restoreInto (set : Saved N) (numFDs : ℕ) (h : ℕ → Handle N) (count : Counts) :
    Option (Option (ℕ → Handle N) × Counts) :=
  let h := fun i =>
    if i < numFDs then set.entries i else if i < maxFD then { h i with node := none } else h i
  (eachOpen increment h numFDs count).map fun count => (some h, count)

/-- `VFS_RestoreHandles`; a page that is not there is allocated if a handle is to go into it. -/
def vfsRestoreHandles (numFDs : ℕ) (set : Option (Saved N)) (allocated : Bool) :
    Option (Option (ℕ → Handle N) × Counts) :=
  match set with
  | none => some (handles, count)
  | some set =>
    let numFDs := min numFDs maxFD
    match handles with
    | some h => (eachOpen decrement h numFDs count).bind (restoreInto maxFD set numFDs h)
    | none =>
      if numFDs = 0 then if maxFD = 0 then some (none, count) else none
      else if ¬ allocated then some (none, count)
      else restoreInto maxFD set numFDs (fun _ => cleared) count

/-- `VFS_FreeSavedHandles` of a set -/
def vfsFreeSavedHandles (numFDs : ℕ) (set : Saved N) : Option Counts :=
  eachOpen dereferenceMount set.entries numFDs count

/-- A clone, with or without the handle page of its parent, and the calls on handle sets -/
inductive Op (N : Type) where
  | clone (pid : ℕ) (copied : Bool)
  | save (pid numFDs : ℕ) (fds : Option (ℕ → ℤ)) (malloc : Option (ℕ → Handle N))
  | restore (pid numFDs : ℕ) (set : Option ℕ) (allocated : Bool)
  | free (numFDs : ℕ) (set : Option ℕ)
  | exit (pid : ℕ)

def System.proc (s : System N) (pid : ℕ) : Option (Option (ℕ → Handle N)) :=
  if pid < s.nextPID then s.procs pid else none

def System.set (s : System N) (k : ℕ) : Option (Saved N) :=
  if k < s.nextSaved then s.saved k else none

def step (s : System N) : Op N → Option (System N)
  | .clone pid copied =>
    (s.proc pid).bind fun handles =>
      (vfsReferenceUserHandles s.maxFD handles s.count).map fun count =>
        { s with
          count := count
          procs := update s.procs s.nextPID (some (if copied then handles else none))
          nextPID := s.nextPID + 1 }
  | .save pid numFDs fds malloc =>
    (s.proc pid).bind fun handles =>
      (vfsSaveHandles s.maxFD handles s.count numFDs fds malloc).map fun (set, count) =>
        { s with
          count := count
          saved := update s.saved s.nextSaved set
          nextSaved := s.nextSaved + 1 }
  | .restore pid numFDs set allocated =>
    (s.proc pid).bind fun handles =>
      (match set with
        | none => some none
        | some k => (s.set k).map some).bind fun set =>
          (vfsRestoreHandles s.maxFD handles s.count numFDs set allocated).map
            fun (handles, count) =>
              { s with count := count, procs := update s.procs pid (some handles) }
  | .free numFDs set =>
    match set with
    | none => some s
    | some k =>
      (s.set k).bind fun set =>
        (vfsFreeSavedHandles s.count numFDs set).map fun count =>
          { s with count := count, saved := update s.saved k none }
  | .exit pid =>
    (s.proc pid).map fun handles =>
      -- the page goes with the address space of the process
      let _ := vfsCloseAllUserHandles s.maxFD handles
      { s with procs := update s.procs pid none }

def openIn (maxFD mnt : ℕ) : Option (Option (ℕ → Handle N)) → ℕ
  | some (some h) => tally (On mnt) h maxFD
  | _ => 0

def openSaved (mnt : ℕ) : Option (Saved N) → ℕ
  | some set => tally (On mnt) set.entries set.filled
  | none => 0

def live (s : System N) (mnt : ℕ) : ℕ :=
  ∑ pid ∈ Finset.range s.nextPID, openIn s.maxFD mnt (s.procs pid) +
  ∑ k ∈ Finset.range s.nextSaved, openSaved mnt (s.saved k)

/-- Each count is the live handles on the mount, and what else holds it. -/
def LiveBalanced (base : ℕ → ℕ) (s : System N) : Prop := ∀ mnt, s.count mnt = base mnt + live s mnt

def NoneOpen (h : ℕ → Handle N) (a b : ℕ) : Prop := ∀ i, a ≤ i → i < b → ∀ mnt, ¬ On mnt (h i)

instance (h : ℕ → Handle N) (a b : ℕ) : Decidable (NoneOpen h a b) :=
  decidable_of_iff (∀ i < b, a ≤ i → ¬ ((h i).node.isSome ∧ (h i).mount.isSome)) <| by
    constructor
    · intro hnone i ha hb mnt hon
      exact hnone i hb ha ⟨hon.1, by rw [hon.2]; rfl⟩
    · rintro hnone i hb ha ⟨hnode, hmount⟩
      obtain ⟨mnt, hmount⟩ := Option.isSome_iff_exists.mp hmount
      exact hnone i ha hb mnt ⟨hnode, hmount⟩

def NoneOpenFrom (s : System N) (pid a : ℕ) : Prop :=
  ∀ h, s.proc pid = some (some h) → NoneOpen h a s.maxFD

instance (s : System N) (pid a : ℕ) : Decidable (NoneOpenFrom s pid a) :=
  match hproc : s.proc pid with
  | some (some h) => decidable_of_iff (NoneOpen h a s.maxFD) (by simp [NoneOpenFrom, hproc])
  | some none => isTrue (by simp [NoneOpenFrom, hproc])
  | none => isTrue (by simp [NoneOpenFrom, hproc])

/-- No handle that counts is lost: the process that ends has none, nothing is behind those restored,
a set is freed with all it has, and a clone has the page it was counted for. -/
def Spared (s : System N) : Op N → Prop
  | .clone pid copied => copied = true ∨ NoneOpenFrom s pid 0
  | .save .. => True
  | .restore pid numFDs set _ => set.isSome = true → NoneOpenFrom s pid (min numFDs s.maxFD)
  | .free numFDs set =>
    ∀ block ∈ set.bind s.set,
      NoneOpen block.entries numFDs block.filled ∧ NoneOpen block.entries block.filled numFDs
  | .exit pid => NoneOpenFrom s pid 0

instance (s : System N) : DecidablePred (Spared s) := by
  intro op
  cases op <;> unfold Spared <;> infer_instance

variable {base : ℕ → ℕ} {s t : System N} {h : ℕ → Handle N} {count} {count' : Counts} {n : ℕ}

theorem tally_eq_iff_noneOpen {a b : ℕ} (hle : a ≤ b) :
    (∀ mnt, tally (On mnt) h b = tally (On mnt) h a) ↔ NoneOpen h a b := by
  constructor
  · intro heq i ha hb mnt
    exact (tally_eq_iff hle).mp (heq mnt) i ha hb
  · intro hnone mnt
    exact (tally_eq_iff hle).mpr fun i ha hb => hnone i ha hb mnt

theorem eachOpen_apply {f : Counts → ℕ → Option Counts} {d : ℤ}
    (hf : ∀ count mnt count', f count mnt = some count' → count' = update count mnt (count mnt + d))
    (hloop : eachOpen f h n count = some count') (mnt : ℕ) :
    count' mnt = count mnt + d * tally (On mnt) h n := by
  induction n generalizing count' with
  | zero =>
    cases hloop
    rw [tally, Int.natCast_zero, mul_zero, add_zero]
  | succ n ih =>
    obtain ⟨count₁, hloop, hlast⟩ := bind_eq_some_iff.mp hloop
    have hbefore := ih hloop
    rw [tally]
    split at hlast
    case isTrue hfree =>
      cases hlast
      rw [if_neg (not_on_free (isNone_iff_eq_none.mp hfree))]
      exact hbefore
    case isFalse hopen =>
      obtain ⟨m, hmount, hlast⟩ := bind_eq_some_iff.mp hlast
      obtain rfl := hf _ _ _ hlast
      rw [update_apply]
      by_cases hm : mnt = m
      · have hon : On mnt (h n) := ⟨by simpa [isSome_iff_ne_none] using hopen, by rw [hmount, hm]⟩
        rw [if_pos hm, if_pos hon, ← hm, hbefore, natCast_add, Int.natCast_one,
          mul_add, mul_one, add_assoc]
      · have hoff : ¬ On mnt (h n) := by
          rintro ⟨-, hon⟩
          rw [hmount] at hon
          exact hm (some.inj hon).symm
        rw [if_neg hm, if_neg hoff, hbefore, add_zero]

theorem increments (hloop : eachOpen increment h n count = some count') (mnt : ℕ) :
    count' mnt = count mnt + tally (On mnt) h n := by
  have happly := eachOpen_apply (d := 1) (fun _ _ _ heq => (some.inj heq).symm) hloop mnt
  rwa [one_mul] at happly

theorem decrements (hloop : eachOpen decrement h n count = some count') (mnt : ℕ) :
    count' mnt = count mnt - tally (On mnt) h n := by
  have happly := eachOpen_apply (d := -1) (fun _ _ _ heq => (some.inj heq).symm) hloop mnt
  omega

theorem dereferences (hloop : eachOpen dereferenceMount h n count = some count') (mnt : ℕ) :
    count' mnt = count mnt - tally (On mnt) h n := by
  have hderef : ∀ (count : Counts) (mnt : ℕ) (count' : Counts),
      dereferenceMount count mnt = some count' →
      count' = update count mnt (count mnt + -1) := by
    intro count mnt count' heq
    obtain ⟨-, heq⟩ := ite_none_right_eq_some.mp heq
    exact (some.inj heq).symm
  have happly := eachOpen_apply hderef hloop mnt
  omega

theorem liveBalanced_iff (lost : ℕ → ℤ) (hs : LiveBalanced base s)
    (hchange : ∀ mnt, t.count mnt = s.count mnt + (live t mnt - live s mnt) + lost mnt) :
    LiveBalanced base t ↔ ∀ mnt, lost mnt = 0 := by
  refine forall_congr' fun mnt => ?_
  have hbefore := hs mnt
  have hafter := hchange mnt
  omega

variable {pid k : ℕ}

theorem live_setProc (count : Counts) (hpid : pid < s.nextPID) (p : Option (Option (ℕ → Handle N)))
    (mnt : ℕ) : live { s with count := count, procs := update s.procs pid p } mnt +
      openIn s.maxFD mnt (s.procs pid) = live s mnt + openIn s.maxFD mnt p := by
  have hsum := sum_update (w := openIn s.maxFD mnt) (f := s.procs) hpid p
  unfold live
  dsimp only
  omega

theorem live_addProc (p : Option (Option (ℕ → Handle N))) (mnt : ℕ) : live { s with
      count := count
      procs := update s.procs s.nextPID p
      nextPID := s.nextPID + 1 } mnt = live s mnt + openIn s.maxFD mnt p := by
  have hsum := sum_update_last (w := openIn s.maxFD mnt) (f := s.procs) (n := s.nextPID) p
  unfold live
  dsimp only
  omega

theorem live_setSaved (count : Counts) (hk : k < s.nextSaved) (set : Option (Saved N)) (mnt : ℕ) :
    live { s with count := count, saved := update s.saved k set } mnt +
      openSaved mnt (s.saved k) = live s mnt + openSaved mnt set := by
  have hsum := sum_update (w := openSaved mnt) (f := s.saved) hk set
  unfold live
  dsimp only
  omega

theorem live_addSaved (set : Option (Saved N)) (mnt : ℕ) : live { s with
      count := count
      saved := update s.saved s.nextSaved set
      nextSaved := s.nextSaved + 1 } mnt = live s mnt + openSaved mnt set := by
  have hsum := sum_update_last (w := openSaved mnt) (f := s.saved) (n := s.nextSaved) set
  unfold live
  dsimp only
  omega

theorem proc_eq_some {handles : Option (ℕ → Handle N)} (hproc : s.proc pid = some handles) :
    pid < s.nextPID ∧ s.procs pid = some handles := ite_none_right_eq_some.mp hproc

theorem set_eq_some {set : Saved N} (hset : s.set k = some set) :
    k < s.nextSaved ∧ s.saved k = some set := ite_none_right_eq_some.mp hset

section Calls

variable {numFDs : ℕ} {handles} {malloc : Option (ℕ → Handle N)} {fds : Option (ℕ → ℤ)} {maxFD}
  {set : Option (Saved N)} {allocated : Bool}

theorem openIn_eq_iff {a : ℕ} (hproc : s.proc pid = some handles) (ha : a ≤ s.maxFD) :
    (∀ mnt, (openIn s.maxFD mnt (some handles) : ℤ) - openIn a mnt (some handles) = 0) ↔
      NoneOpenFrom s pid a := by
  cases handles with
  | none => exact iff_of_true (fun _ => rfl) (by simp [NoneOpenFrom, hproc])
  | some h =>
    simp only [NoneOpenFrom, hproc, some.injEq, forall_eq']
    rw [← tally_eq_iff_noneOpen ha]
    exact forall_congr' fun mnt => (by simp only [openIn]; omega)

theorem openIn_eq_zero_iff (hproc : s.proc pid = some handles) :
    (∀ mnt, (openIn s.maxFD mnt (some handles) : ℤ) = 0) ↔ NoneOpenFrom s pid 0 := by
  have hzero : ∀ mnt, openIn 0 mnt (some handles) = 0 := fun mnt => by cases handles <;> rfl
  simpa [hzero] using openIn_eq_iff hproc (zero_le s.maxFD)

variable (hs : LiveBalanced base s)
include hs

theorem clone_balanced_iff {copied : Bool} (hstep : step s (.clone pid copied) = some t) :
    LiveBalanced base t ↔ Spared s (.clone pid copied) := by
  obtain ⟨handles, hproc, hstep⟩ := bind_eq_some_iff.mp hstep
  obtain ⟨count, hcount, rfl⟩ := map_eq_some_iff.mp hstep
  have hopen : ∀ mnt, count mnt = s.count mnt + openIn s.maxFD mnt (some handles) := by
    intro mnt
    cases handles with
    | none =>
      cases hcount
      exact (add_zero _).symm
    | some h => exact increments hcount mnt
  cases copied with
  | true =>
    refine iff_of_true ?_ (.inl rfl)
    intro mnt
    have hbefore := hs mnt
    rw [live_addProc, if_pos rfl]
    dsimp only
    rw [hopen mnt]
    omega
  | false =>
    refine (liveBalanced_iff (fun mnt => openIn s.maxFD mnt (some handles)) hs ?_).trans ?_
    · intro mnt
      have hnone : openIn s.maxFD mnt (some (none : Option (ℕ → Handle N))) = 0 := rfl
      rw [live_addProc, if_neg (by decide), hnone]
      dsimp only
      rw [hopen mnt]
      omega
    · rw [openIn_eq_zero_iff hproc]
      exact ⟨.inr, fun hor => hor.resolve_left (by decide)⟩

theorem exit_balanced_iff (hstep : step s (.exit pid) = some t) :
    LiveBalanced base t ↔ Spared s (.exit pid) := by
  obtain ⟨handles, hproc, rfl⟩ := map_eq_some_iff.mp hstep
  obtain ⟨hpid, hprocs⟩ := proc_eq_some hproc
  refine (liveBalanced_iff (fun mnt => openIn s.maxFD mnt (some handles)) hs ?_).trans
    (openIn_eq_zero_iff hproc)
  intro mnt
  have hlive := live_setProc s.count hpid none mnt
  have hnone : openIn s.maxFD mnt (none : Option (Option (ℕ → Handle N))) = 0 := rfl
  rw [hprocs] at hlive
  dsimp only
  omega

omit hs in
theorem saveHandles_apply
    (hsave : vfsSaveHandles maxFD handles count numFDs fds malloc = some (set, count')) (mnt : ℕ) :
    count' mnt = count mnt + openSaved mnt set := by
  have hnothing : openSaved mnt (none : Option (Saved N)) = 0 := rfl
  unfold vfsSaveHandles at hsave
  split at hsave
  case h_1 | h_2 =>
    cases hsave
    omega
  case h_3 h ret =>
    dsimp only at hsave
    split at hsave
    case h_1 =>
      cases hsave
      omega
    case h_2 ret' hcopied =>
      obtain ⟨count₁, hloop, heq⟩ := map_eq_some_iff.mp hsave
      cases heq
      exact increments hloop mnt

theorem save_balanced
    (hstep : step s (.save pid numFDs fds malloc) = some t) : LiveBalanced base t := by
  obtain ⟨handles, -, hstep⟩ := bind_eq_some_iff.mp hstep
  obtain ⟨⟨set, count⟩, hsave, rfl⟩ := map_eq_some_iff.mp hstep
  intro mnt
  have hbefore := hs mnt
  have hcount := saveHandles_apply hsave mnt
  rw [live_addSaved]
  dsimp only
  omega

theorem free_balanced_iff {set : Option ℕ} (hstep : step s (.free numFDs set) = some t) :
    LiveBalanced base t ↔ Spared s (.free numFDs set) := by
  cases set with
  | none =>
    cases hstep
    exact iff_of_true hs fun block hblock => (by cases hblock)
  | some k =>
    obtain ⟨block, hset, hstep⟩ := bind_eq_some_iff.mp hstep
    obtain ⟨count, hloop, rfl⟩ := map_eq_some_iff.mp hstep
    obtain ⟨hk, hsaved⟩ := set_eq_some hset
    have hspared : Spared s (.free numFDs (some k)) ↔
        NoneOpen block.entries numFDs block.filled ∧
          NoneOpen block.entries block.filled numFDs := by
      simp [Spared, hset]
    rw [hspared]
    refine (liveBalanced_iff (fun mnt => (tally (On mnt) block.entries block.filled : ℤ) -
      tally (On mnt) block.entries numFDs) hs ?_).trans ?_
    · intro mnt
      have hlive := live_setSaved count hk none mnt
      have hnothing : openSaved mnt (none : Option (Saved N)) = 0 := rfl
      have hcount := dereferences hloop mnt
      rw [hsaved, openSaved] at hlive
      dsimp only
      omega
    · rcases le_total numFDs block.filled with hle | hle
      · have hnone : NoneOpen block.entries block.filled numFDs := fun i ha hb => (by omega)
        rw [and_iff_left hnone, ← tally_eq_iff_noneOpen hle]
        exact forall_congr' fun mnt => (by omega)
      · have hnone : NoneOpen block.entries numFDs block.filled := fun i ha hb => (by omega)
        rw [and_iff_right hnone, ← tally_eq_iff_noneOpen hle]
        exact forall_congr' fun mnt => (by omega)

omit hs in
theorem restoreInto_apply {set : Saved N} (hle : numFDs ≤ maxFD)
    (hrestore : restoreInto maxFD set numFDs h count = some (handles, count')) (mnt : ℕ) :
    count' mnt = count mnt + openIn maxFD mnt (some handles) := by
  obtain ⟨count₁, hloop, heq⟩ := map_eq_some_iff.mp hrestore
  cases heq
  rw [increments hloop mnt, openIn]
  congr 2
  apply Eq.symm
  apply (tally_eq_iff hle).mpr
  intro i ha hb
  rw [if_neg (by omega), if_pos hb]
  exact not_on_free rfl

omit hs in
theorem restoreHandles_apply {handles' : Option (ℕ → Handle N)}
    (hrestore : vfsRestoreHandles maxFD handles count numFDs set allocated =
      some (handles', count'))
    (mnt : ℕ) :
    count' mnt = count mnt + openIn maxFD mnt (some handles') -
      if set.isSome then openIn (min numFDs maxFD) mnt (some handles)
      else openIn maxFD mnt (some handles) := by
  have hunmapped : ∀ n, openIn n mnt (some (none : Option (ℕ → Handle N))) = 0 := fun _ => rfl
  have hmin := min_le_right numFDs maxFD
  unfold vfsRestoreHandles at hrestore
  cases set with
  | none =>
    cases hrestore
    rw [isSome_none, if_neg Bool.false_ne_true]
    omega
  | some set =>
    rw [isSome_some, if_pos rfl]
    cases handles with
    | some h =>
      obtain ⟨count₁, hloop, hrestore⟩ := bind_eq_some_iff.mp hrestore
      have hdecrement := decrements hloop mnt
      rw [restoreInto_apply hmin hrestore mnt, hdecrement, openIn]
      omega
    | none =>
      rw [hunmapped]
      dsimp only at hrestore
      split at hrestore
      · obtain ⟨-, ⟨⟩⟩ := ite_none_right_eq_some.mp hrestore
        rw [hunmapped]
        omega
      split at hrestore
      · cases hrestore
        rw [hunmapped]
        omega
      · rw [restoreInto_apply hmin hrestore mnt]
        omega

theorem restore_balanced_iff {set : Option ℕ}
    (hstep : step s (.restore pid numFDs set allocated) = some t) :
    LiveBalanced base t ↔ Spared s (.restore pid numFDs set allocated) := by
  obtain ⟨handles, hproc, hstep⟩ := bind_eq_some_iff.mp hstep
  obtain ⟨block, hblock, hstep⟩ := bind_eq_some_iff.mp hstep
  obtain ⟨⟨handles', count⟩, hrestore, rfl⟩ := map_eq_some_iff.mp hstep
  obtain ⟨hpid, hprocs⟩ := proc_eq_some hproc
  have hsome : block.isSome = set.isSome := by
    cases set with
    | none =>
      cases hblock
      rfl
    | some k =>
      obtain ⟨b, -, rfl⟩ := map_eq_some_iff.mp hblock
      rfl
  have hcount := restoreHandles_apply hrestore
  refine (liveBalanced_iff (fun mnt => (openIn s.maxFD mnt (some handles) : ℤ) -
    if set.isSome then openIn (min numFDs s.maxFD) mnt (some handles)
    else openIn s.maxFD mnt (some handles)) hs ?_).trans ?_
  · intro mnt
    have hlive := live_setProc count hpid (some handles') mnt
    have hmoved := hcount mnt
    rw [hprocs] at hlive
    rw [hsome] at hmoved
    dsimp only
    omega
  · cases set with
    | none =>
      refine iff_of_true (fun mnt => ?_) fun hset => (by cases hset)
      rw [isSome_none, if_neg Bool.false_ne_true]
      omega
    | some k =>
      simp only [Spared, isSome_some, if_true, true_imp_iff]
      exact openIn_eq_iff hproc (min_le_right numFDs s.maxFD)

theorem step_balanced_iff {op : Op N} (hstep : step s op = some t) :
    LiveBalanced base t ↔ Spared s op := by
  cases op with
  | clone pid copied => exact clone_balanced_iff hs hstep
  | save pid numFDs fds malloc => exact iff_of_true (save_balanced hs hstep) trivial
  | restore pid numFDs set allocated => exact restore_balanced_iff hs hstep
  | free numFDs set => exact free_balanced_iff hs hstep
  | exit pid => exact exit_balanced_iff hs hstep

end Calls

theorem live_handles_counted_iff {base : ℕ → ℕ} {s t : System N} (hs : LiveBalanced base s)
    {ops : List (Op N)} (hrun : run step s ops = some t) :
    Along step (fun s op => ∀ u, step s op = some u → LiveBalanced base u) s ops ↔
      Along step Spared s ops := by
  apply run_along_congr _ _ hs hrun
  · intro s op u hs hspared hstep
    exact (step_balanced_iff hs hstep).mpr hspared
  · intro s op u hs hstep
    constructor
    · intro hall
      exact (step_balanced_iff hs hstep).mp (hall u hstep)
    · intro hspared u' hstep'
      exact (step_balanced_iff hs hstep').mpr hspared

def sampleSystem : System ℕ where
  maxFD := 2
  count mnt := if mnt = 0 then 2 else 0
  procs _ := some (some fun _ => ⟨some 7, some 0, 0, 0⟩)
  nextPID := 1
  saved _ := none
  nextSaved := 0

theorem sampleSystem_balanced : LiveBalanced (fun _ => 0) sampleSystem := by
  intro mnt
  by_cases hmnt : mnt = 0
  · subst hmnt
    decide +kernel
  have hoff : openIn 2 mnt (sampleSystem.procs 0) = 0 := by
    apply tally_eq_zero
    rintro i - ⟨-, hon⟩
    exact hmnt (some.inj hon).symm
  have hlive : live sampleSystem mnt = 0 := by
    show ∑ pid ∈ range 1, openIn 2 mnt (sampleSystem.procs pid) +
      ∑ k ∈ range 0, openSaved mnt (sampleSystem.saved k) = 0
    rw [sum_range_one, hoff, sum_range_zero, add_zero]
  rw [hlive]
  exact if_neg hmnt

def sampleSpawn : List (Op ℕ) :=
  [.save 0 2 none (some fun _ => cleared), .clone 0 true, .restore 1 2 (some 0) true,
    .free 2 (some 0)]

theorem spawn_is_counted :
    Along step (fun s op => ∀ u, step s op = some u → LiveBalanced (fun _ => 0) u) sampleSystem
      sampleSpawn := by
  obtain ⟨t, hrun⟩ := isSome_iff_exists.mp
    (show (run step sampleSystem sampleSpawn).isSome = true by decide +kernel)
  exact (live_handles_counted_iff sampleSystem_balanced hrun).mpr (by decide +kernel)

/-- A clone that ends leaves the mount held. So does restoring one handle over two, and freeing a
set of more than `MaxFD` handles gives back what was never held. -/
theorem exit_keeps_mount_held :
    (run step sampleSystem [.clone 0 true, .exit 1]).map (fun s => (s.count 0, live s 0)) =
      some (4, 2) ∧
    (run step sampleSystem [.save 0 1 none (some fun _ => cleared), .restore 0 1 (some 0) true]).map
      (fun s => (s.count 0, live s 0)) = some (3, 2) ∧
    (run step sampleSystem [.save 0 3 none (some fun _ => ⟨some 7, some 0, 0, 0⟩),
      .free 3 (some 0)]).map (fun s => (s.count 0, live s 0)) = some (1, 2) := by
  decide +kernel

end VfsHandleSets
