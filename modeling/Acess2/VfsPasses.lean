import Acess2.VfsModel

/-! One pass of `VFS_ParsePath` over a path, between two of its restarts at symbolic links, and
what a whole call does to the counts of open handles. -/
namespace VfsPasses

open CharBuffers Function List Option VfsModel

variable {N : Type}

/-- One pass over a path, up to its end or to its first symbolic link -/
inductive Pass (N : Type) where
  | ended (result : Parsed N)
  | link (node : N) (behind : ℕ)

variable (t : VfsModel.Tree N) (who : Caller) (mounts : List (Mount N)) (root : Mount N)

def pass (path : List Char) : Pass N :=
  if path = ['/'] then .ended (.found root.rootNode root.mountPoint (some root))
  else if mounts.isEmpty then .ended (.failed none)
  else
    match selectMount path mounts root with
    | .root mnt => .ended (.found mnt.rootNode mnt.mountPoint (some mnt))
    | .inside mnt =>
      match walk t who mnt.rootNode (mnt.mountPointLen + 1) mnt.point
        (splitSlash (path.drop (mnt.mountPointLen + 1))) with
      | .leaf node truePath => .ended (.found node truePath (some mnt))
      | .failed errno => .ended (.failed errno)
      | .link node behind =>
        if ¬ ((t.type node).any Methods.read) then .ended (.failed (some .einternal))
        else .link node behind

def charge (count : Counts) : Parsed N → Counts
  | .found _ _ (some mnt) => referenceMount count mnt.addr
  | .found _ _ none => count
  | .failed _ => count

theorem dereference_reference {count : Counts} {mnt : ℕ} (h : 0 ≤ count mnt) :
    dereferenceMount (referenceMount count mnt) mnt = some count := by
  unfold dereferenceMount referenceMount
  rw [update_self, if_pos (by omega), update_idem, Int.add_sub_cancel, update_eq_self]

variable {t} {who} {mounts} {root} {path : List Char} {buffer : Buffer} {left : ℕ} {node : N}
  {truePath : List Char} {count count' : Counts} {own : Bool} {parsed : Parsed N}
  {rootMount : Option (Mount N)} {mnt : Mount N}

section

variable (hcount : ∀ mnt, 0 ≤ count mnt)
include hcount

/-- One restart of the code: its pass, and what it does at a link -/
theorem parseFrom_pass : parseFrom t who mounts (some root) left own path buffer count =
      match pass t who mounts root path with
      | .ended result => some (result, charge count result)
      | .link node behind =>
        match left with
        | 0 => some (.failed (some .enoent), count)
        | left + 1 =>
          if (t.text node).val.length + (path.length - behind) > maxPathLen then
            some (.failed (some .enoent), count)
          else (substitute own path buffer (t.text node) behind).bind fun (path, buffer) =>
              parseFrom t who mounts (some root) left true path buffer count := by
  rw [parseFrom.eq_def, pass]
  dsimp only
  split_ifs with hroot hempty
  · rfl
  · rfl
  rw [bind_some]
  cases hselect : selectMount path mounts root with
  | root mnt => rfl
  | inside mnt =>
    have hundo := dereference_reference (hcount mnt.addr)
    dsimp only
    cases hwalk : walk t who mnt.rootNode (mnt.mountPointLen + 1) mnt.point
      (splitSlash (path.drop (mnt.mountPointLen + 1))) with
    | leaf node truePath => rfl
    | failed errno =>
      rw [hundo]
      rfl
    | link node behind =>
      dsimp only
      by_cases hread : (t.type node).any Methods.read = true
      · rw [if_neg (not_not.mpr hread), if_neg (not_not.mpr hread)]
        cases left with
        | zero =>
          rw [hundo]
          rfl
        | succ left =>
          dsimp only
          split
          all_goals
            rw [hundo]
            rfl
      · rw [if_pos hread, if_pos hread, hundo]
        rfl

theorem parseFrom_ends
    (h : parseFrom t who mounts (some root) left own path buffer count = some (parsed, count')) :
    count' = charge count parsed ∧
      ((∃ errno, parsed = .failed errno) ∨
        ∃ path', pass t who mounts root path' = .ended parsed) := by
  induction left generalizing own path buffer with
  | zero =>
    rw [parseFrom_pass hcount] at h
    split at h
    case h_1 result hpass =>
      cases h
      exact ⟨rfl, .inr ⟨path, hpass⟩⟩
    case h_2 =>
      cases h
      exact ⟨rfl, .inl ⟨_, rfl⟩⟩
  | succ left ih =>
    rw [parseFrom_pass hcount] at h
    split at h
    case h_1 result hpass =>
      cases h
      exact ⟨rfl, .inr ⟨path, hpass⟩⟩
    case h_2 =>
      dsimp only at h
      split at h
      · cases h
        exact ⟨rfl, .inl ⟨_, rfl⟩⟩
      · obtain ⟨⟨path', buffer'⟩, -, h⟩ := bind_eq_some_iff.mp h
        exact ih h

theorem vfsParsePath_charge
    (h : vfsParsePath t who mounts rootMount buffer count path = some (parsed, count')) :
    count' = charge count parsed := by
  unfold vfsParsePath at h
  split at h
  · split at h
    all_goals
      cases h
      rfl
  cases rootMount with
  | none =>
    rw [parseFrom.eq_def] at h
    dsimp only at h
    split_ifs at h <;> cases h
    rfl
  | some root => exact (parseFrom_ends hcount h).1

end

theorem selectMount_mem {longest : Mount N}
    (h : selectMount path mounts longest = .root mnt ∨
      selectMount path mounts longest = .inside mnt) :
    mnt ∈ mounts ∨ mnt = longest := by
  induction mounts generalizing longest with
  | nil =>
    rcases h with h | h
    · cases h
    · exact .inr (Selected.inside.inj h).symm
  | cons m mounts ih =>
    unfold selectMount at h
    iterate 3
      split at h
      · exact (ih h).imp_left (mem_cons_of_mem m)
    split at h
    · rcases h with h | h
      · obtain rfl := Selected.root.inj h
        exact .inl mem_cons_self
      · cases h
    · rcases ih h with hmem | rfl
      · exact .inl (mem_cons_of_mem m hmem)
      · exact .inl mem_cons_self

theorem pass_found_mem
    (h : pass t who mounts root path = .ended (.found node truePath (some mnt))) :
    mnt ∈ mounts ∨ mnt = root := by
  unfold pass at h
  split at h
  · cases h
    exact .inr rfl
  split at h
  · cases h
  split at h
  case h_1 m hselect =>
    cases h
    exact selectMount_mem (.inl hselect)
  case h_2 m hselect =>
    split at h
    · cases h
      exact selectMount_mem (.inr hselect)
    · cases h
    · split at h <;> cases h

theorem vfsParsePath_found_mem
    (hcount : ∀ mnt, 0 ≤ count mnt) (hroot : ∀ root ∈ rootMount, root ∈ mounts)
    (h : vfsParsePath t who mounts rootMount buffer count path =
      some (.found node truePath (some mnt), count')) : mnt ∈ mounts := by
  unfold vfsParsePath at h
  split at h
  · split at h <;> cases h
  cases rootMount with
  | none =>
    rw [parseFrom.eq_def] at h
    dsimp only at h
    split_ifs at h <;> cases h
  | some root =>
    rcases (parseFrom_ends hcount h).2 with ⟨errno, hfailed⟩ | ⟨path', hpass⟩
    · cases hfailed
    · rcases pass_found_mem hpass with hmem | rfl
      · exact hmem
      · exact hroot mnt rfl

def sampleRoot : Mount ℕ := ⟨0, ⟨['/'], by decide⟩, 0, 0, 1⟩

end VfsPasses
