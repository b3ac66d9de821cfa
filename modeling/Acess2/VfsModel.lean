import Mathlib.Algebra.Order.Ring.Int
import Acess2.CharBuffers
import Acess2.VfsAcls

/-! Mounts, nodes and path resolution of the VFS (`vfs/open.c`, `vfs/mount.c`).
A result `none` is a call that does not come back: a failed assertion, a null mount pointer
followed, or a copy that runs out of its buffer. Strings are lists of characters without the
final null character. -/
namespace VfsModel

open CharBuffers Function VfsAcls

inductive Errno where
  | eperm | enoent | eacces | einval | enotdir | enfile | ebadf | eagain | ebusy | einternal
  deriving DecidableEq

/-- `tVFS_NodeType`, for one node: a method that is NULL is `none`. -/
structure Methods (N : Type) where
  findDir : Option (List Char → Option N)
  mkNod : Option (List Char → Option N)
  read : Bool

/-- The nodes of all filesystems as one call meets them. `text` is what a symbolic link reads,
`goodType` whether `Node->Type` is mapped, `inode` the `GetNodeFromINode` of the filesystem with
this root, `memFile` is `VFS_MemFile_Create`. -/
structure Tree (N : Type) where
  type : N → Option (Methods N)
  goodType : N → Bool
  symlink : N → Bool
  directory : N → Bool
  text : N → Text
  acls : N → List ACL
  inode : N → Option (ℕ → Option N)
  memFile : List Char → Option N

structure Caller where
  uid : BitVec 32
  gid : BitVec 32

variable {N : Type}

def Tree.checkACL (t : Tree N) (who : Caller) (node : N) (perms : BitVec 32) : Bool :=
  vfsCheckACL (t.acls node) perms who.uid who.gid

def Tree.findDir (t : Tree N) (node : N) : Option (List Char → Option N) :=
  (t.type node).bind Methods.findDir

/-- `tVFS_Mount`; the open handle counts are kept by address. -/
structure Mount (N : Type) where
  addr : ℕ
  mountPoint : Text
  mountPointLen : ℕ
  rootNode : N
  identifier : ℕ

/-- The first `MountPointLen` characters of `MountPoint`: none for the root -/
def Mount.point (mnt : Mount N) : List Char := mnt.mountPoint.val.take mnt.mountPointLen

/-- `OpenHandleCount` of the mount at each address -/
abbrev Counts := ℕ → ℤ

def referenceMount (count : Counts) (mnt : ℕ) : Counts := update count mnt (count mnt + 1)

/-- `_DereferenceMount`, with its assertion -/
def dereferenceMount (count : Counts) (mnt : ℕ) : Option Counts :=
  if count mnt > 0 then some (update count mnt (count mnt - 1)) else none

def maxNestedLinks : ℕ := 4

def maxPathLen : ℕ := 255

/-- `Path[i]`; behind the end it does not matter what is read. -/
def charAt (path : List Char) (i : ℕ) : Char := path.getD i nul

inductive Selected (N : Type) where
  | root (mnt : Mount N)
  | inside (mnt : Mount N)

/-- The loop over `gVFS_Mounts` -/
def selectMount (path : List Char) : List (Mount N) → Mount N → Selected N
  | [], longest => .inside longest
  | mnt :: mounts, longest =>
    if charAt path mnt.mountPointLen ≠ '/' ∧ charAt path mnt.mountPointLen ≠ nul then
      selectMount path mounts longest
    else if mnt.mountPointLen < longest.mountPointLen then selectMount path mounts longest
    else if path.take mnt.mountPointLen ≠ mnt.point then
      selectMount path mounts longest
    else if charAt path mnt.mountPointLen = nul then .root mnt
    else selectMount path mounts mnt

def splitSlash : List Char → List (List Char)
  | [] => [[]]
  | c :: path =>
    if c = '/' then [] :: splitSlash path
    else
      match splitSlash path with
      | [] => [[c]]
      | piece :: pieces => (c :: piece) :: pieces

inductive Walk (N : Type) where
  | leaf (node : N) (truePath : List Char)
  | failed (errno : Option Errno)
  | link (node : N) (behind : ℕ)

/-- The loop over the components from `ofs` on, and the last `FindDir` behind it -/
def walk (t : Tree N) (who : Caller) : N → ℕ → List Char → List (List Char) → Walk N
  | _, _, _, [] => .failed none
  | node, _, truePath, [name] =>
    match t.findDir node with
    | none => .failed (some .enoent)
    | some findDir =>
      match findDir name with
      | none => .failed (some .enoent)
      | some leaf => .leaf leaf (truePath ++ '/' :: name)
  | node, ofs, truePath, name :: names =>
    if name = [] then walk t who node (ofs + 1) truePath names
    else if ¬ t.checkACL who node (permExec.setWidth 32) then .failed (some .eperm)
    else
      match t.findDir node with
      | none => .failed none
      | some findDir =>
        match findDir name with
        | none => .failed (some .enoent)
        | some child =>
          if t.symlink child then .link child (ofs + name.length)
          else if ¬ t.directory child then .failed (some .enotdir)
          else walk t who child (ofs + name.length + 1) (truePath ++ '/' :: name) names

inductive Parsed (N : Type) where
  | found (node : N) (truePath : List Char) (mnt : Option (Mount N))
  | failed (errno : Option Errno)

/-- `Read` of the link into `path_buffer`, and `strcat` of the rest, which from the second link on
(`own`) is in the buffer itself -/
def substitute (own : Bool) (path : List Char) (buffer : Buffer) (text : Text) (behind : ℕ) :
    Option (List Char × Buffer) :=
  let b := strcpy buffer 0 text
  if own then
    (moveUntil (· == nul) (maxPathLen + 1) b behind text.val.length).bind fun (stop, b) =>
      let b := update b stop nul
      (readString b (maxPathLen + 1) 0).map fun path => (path, b)
  else
    let b := strcpy b text.val.length (path.drop behind)
    (readString b (maxPathLen + 1) 0).map fun path => (path, b)

variable (t : Tree N) (who : Caller) (mounts : List (Mount N)) (rootMount : Option (Mount N))

/-- `restart_parse`, with `left` more links to be followed (`MAX_NESTED_LINKS`) -/
def parseFrom : ℕ → Bool → List Char → Buffer → Counts → Option (Parsed N × Counts)
  | left, own, path, buffer, count =>
    if path = ['/'] then
      rootMount.map fun root =>
        (.found root.rootNode root.mountPoint (some root), referenceMount count root.addr)
    else if mounts.isEmpty then some (.failed none, count)
    else
      rootMount.bind fun root =>
        match selectMount path mounts root with
        | .root mnt =>
          some (.found mnt.rootNode mnt.mountPoint (some mnt), referenceMount count mnt.addr)
        | .inside mnt =>
          let count := referenceMount count mnt.addr
          -- a slash is written over what stands behind `MountPointLen` characters
          match walk t who mnt.rootNode (mnt.mountPointLen + 1) mnt.point
            (splitSlash (path.drop (mnt.mountPointLen + 1))) with
          | .leaf node truePath => some (.found node truePath (some mnt), count)
          | .failed errno => (dereferenceMount count mnt.addr).map fun count =>
              (.failed errno, count)
          | .link node behind =>
            if ¬ ((t.type node).any Methods.read) then
              (dereferenceMount count mnt.addr).map fun count => (.failed (some .einternal), count)
            else
              match left with
              | 0 => (dereferenceMount count mnt.addr).map fun count =>
                  (.failed (some .enoent), count)
              | left + 1 =>
                if (t.text node).val.length + (path.length - behind) > maxPathLen then
                  (dereferenceMount count mnt.addr).map fun count => (.failed (some .enoent), count)
                else
                  (substitute own path buffer (t.text node) behind).bind fun (path, buffer) =>
                    (dereferenceMount count mnt.addr).bind fun count =>
                      parseFrom left true path buffer count

/-- `VFS_ParsePath`; `path_buffer` starts with anything. -/
def vfsParsePath (buffer : Buffer) (count : Counts) (path : List Char) :
    Option (Parsed N × Counts) :=
  if who.uid = 0 ∧ charAt path 0 = '$' then
    match t.memFile path with
    | none => some (.failed none, count)
    | some node => some (.found node path none, count)
  else parseFrom t who mounts rootMount (maxNestedLinks + 1) false path buffer count

end VfsModel
