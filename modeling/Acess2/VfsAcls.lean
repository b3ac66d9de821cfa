import Mathlib.Data.List.Basic

/-! Access control lists of VFS nodes (`vfs/acls.c`).
The deny check of `VFS_CheckACL` is followed by a return that belongs to no branch, so the
lists are scanned and then ignored: only root gets access. `w` is the width of `Uint`. -/
namespace VfsAcls

/-- `tVFS_ACL`, with its bit fields -/
structure ACL where
  group : Bool
  id : BitVec 31
  inv : Bool
  perms : BitVec 31
  deriving DecidableEq

def aclentAll : BitVec 31 := 0x7FFFFFFF

def permRead : BitVec 31 := 0x1
def permWrite : BitVec 31 := 0x2
def permExec : BitVec 31 := 0x8

variable {w : ℕ}

def ACL.Applies (e : ACL) (uid gid : BitVec 32) : Prop :=
  e.id = aclentAll ∨ (if e.group then e.id.setWidth 32 = gid else e.id.setWidth 32 = uid)

instance (e : ACL) (uid gid : BitVec 32) : Decidable (e.Applies uid gid) := by
  unfold ACL.Applies
  infer_instance

def ACL.named (e : ACL) (perms : BitVec w) : BitVec w := e.perms.setWidth w &&& perms

/-- `VFS_int_CheckACLs`; entries with `Inv` set are skipped in both modes. -/
def vfsIntCheckACLs (bDeny : Bool) (perms : BitVec w) (uid gid : BitVec 32) : List ACL → BitVec w
  | [] => if bDeny then 0 else perms
  | e :: acls =>
    if e.inv then vfsIntCheckACLs bDeny perms uid gid acls
    else if ¬ e.Applies uid gid then vfsIntCheckACLs bDeny perms uid gid acls
    else if bDeny ∧ e.named perms ≠ 0 then e.named perms
    else if ¬ bDeny ∧ e.named perms = perms then 0
    else vfsIntCheckACLs bDeny perms uid gid acls

/-- `VFS_CheckACL` of a node with the entries `acls`, by a thread of this user and group. -/
def vfsCheckACL (acls : List ACL) (perms : BitVec w) (uid gid : BitVec 32) : Bool :=
  if uid = 0 then true
  else if acls.length = 0 then false
  else
    -- `if( !rv )` without braces guards a log message only; the `return 0` after it is always
    -- reached, and the scan for an allowing entry never is
    let _rv := vfsIntCheckACLs true perms uid gid acls
    false

/-- What the lists say: some applicable entry allows all that is requested, and no applicable
entry denies a part of it. -/
structure Granted (acls : List ACL) (perms : BitVec w) (uid gid : BitVec 32) : Prop where
  allowed : ∃ e ∈ acls, e.Applies uid gid ∧ e.inv = false ∧ e.named perms = perms
  undenied : ∀ e ∈ acls, e.Applies uid gid → e.inv = true → e.named perms = 0

variable {perms : BitVec w} {uid gid : BitVec 32} {acls : List ACL}

theorem vfsCheckACL_iff_root : vfsCheckACL acls perms uid gid = true ↔ uid = 0 := by
  unfold vfsCheckACL
  split_ifs with hroot
  · exact iff_of_true rfl hroot
  · exact iff_of_false (by simp) hroot
  · exact iff_of_false (by simp) hroot

/-- The decision is the one of the lists exactly for root and for those they do not let in. -/
theorem check_follows_lists_iff (acls : List ACL) (perms : BitVec w) (uid gid : BitVec 32) :
    (vfsCheckACL acls perms uid gid = true ↔ uid = 0 ∨ Granted acls perms uid gid) ↔
      (uid = 0 ∨ ¬ Granted acls perms uid gid) := by
  rw [vfsCheckACL_iff_root]
  constructor
  · intro hagree
    by_cases hroot : uid = 0
    · exact .inl hroot
    · exact .inr fun hgranted => hroot (hagree.mpr (.inr hgranted))
  · rintro (hroot | hdenied)
    · exact iff_of_true hroot (.inl hroot)
    · constructor
      · exact .inl
      · rintro (hroot | hgranted)
        · exact hroot
        · exact absurd hgranted hdenied

def everyoneRWX : ACL := ⟨true, aclentAll, false, 0x7FFFFFFF⟩

/-- User 1 is refused to read a file that everyone may read. -/
theorem everyone_rwx_is_refused : Granted [everyoneRWX] (permRead.setWidth 32) 1 1 ∧
      vfsCheckACL [everyoneRWX] (permRead.setWidth 32) 1 1 = false := by
  refine ⟨⟨⟨everyoneRWX, by simp, .inl rfl, rfl, by decide⟩, fun e he _ hinv => ?_⟩, by decide⟩
  obtain rfl : e = everyoneRWX := by simpa using he
  cases hinv

end VfsAcls
