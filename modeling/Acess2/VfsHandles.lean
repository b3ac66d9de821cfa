import Acess2.VfsModel
import Acess2.VfsPaths

/-! Handle tables and the calls that open and close handles (`vfs/handle.c`, `vfs/open.c`,
`VFS_MkNod` of `vfs/dir.c`). The pages of both handle tables are mapped. -/
namespace VfsHandles

open CharBuffers VfsAcls VfsModel VfsPaths

variable {N : Type}

/-- `tVFS_Handle`; a free slot has a null node. -/
structure Handle (N : Type) where
  node : Option N
  mount : Option ℕ
  position : ℕ
  mode : BitVec 32
  deriving DecidableEq

def maxKernelFiles : ℕ := 128

def kernelFlag : ℕ := 0x40000000

theorem two_le_kernelFlag : 2 ≤ kernelFlag := by decide

structure Vfs (N : Type) where
  mounts : List (Mount N)
  rootMount : Option (Mount N)
  count : Counts
  kernel : ℕ → Handle N
  user : ℕ → Handle N
  maxFD : ℕ
  /-- user descriptors stay below the flag of the kernel's -/
  maxFD_le : maxFD ≤ kernelFlag
  who : Caller
  chroot : Option Text
  cwd : Option Text

/-- What a call meets outside the VFS: the nodes, what is in `path_buffer`, and `malloc` -/
structure Env (N : Type) where
  tree : VfsModel.Tree N
  buffer : Buffer
  malloc : ℕ → Option Buffer

inductive Slot where
  | kernel (i : ℕ)
  | user (i : ℕ)
  deriving DecidableEq

def Vfs.handle (s : Vfs N) : Slot → Handle N
  | .kernel i => s.kernel i
  | .user i => s.user i

def Vfs.setHandle (s : Vfs N) (slot : Slot) (h : Handle N) : Vfs N :=
  match slot with
  | .kernel i => { s with kernel := Function.update s.kernel i h }
  | .user i => { s with user := Function.update s.user i h }

def Vfs.slotOf (s : Vfs N) (fd : ℤ) : Option Slot :=
  if fd < 0 then none
  else if fd.toNat / kernelFlag % 2 = 1 then
    if fd.toNat % kernelFlag ≥ maxKernelFiles then none else some (.kernel (fd.toNat % kernelFlag))
  else if fd.toNat ≥ s.maxFD then none
  else some (.user fd.toNat)

/-- `VFS_GetHandle`: the slot of an open descriptor -/
def vfsGetHandle (s : Vfs N) (fd : ℤ) : Option Slot :=
  (s.slotOf fd).filter fun slot => (s.handle slot).node.isSome

def vfsSetHandle (s : Vfs N) (fd : ℤ) (node : N) (mode : BitVec 32) : ℤ × Vfs N :=
  match s.slotOf fd with
  | none => (-1, s)
  | some slot => (fd, s.setHandle slot { s.handle slot with node := some node, mode := mode })

def firstFree (table : ℕ → Handle N) (n : ℕ) : Option ℕ :=
  (List.range n).find? fun i => (table i).node.isNone

/-- `VFS_AllocHandle`; the slot keeps whatever mount it had. -/
def vfsAllocHandle (s : Vfs N) (isUser : Bool) (node : N) (mode : BitVec 32) : ℤ × Vfs N :=
  if isUser then
    match firstFree s.user s.maxFD with
    | none => (-1, s)
    | some i =>
      (i, s.setHandle (.user i) { s.user i with node := some node, position := 0, mode := mode })
  else
    match firstFree s.kernel maxKernelFiles with
    | none => (-1, s)
    | some i =>
      ((i + kernelFlag : ℕ),
        s.setHandle (.kernel i) { s.kernel i with node := some node, position := 0, mode := mode })

def openflagExec : BitVec 32 := 0x001
def openflagRead : BitVec 32 := 0x002
def openflagWrite : BitVec 32 := 0x004
def openflagNolink : BitVec 32 := 0x040
def openflagCreate : BitVec 32 := 0x080
def openflagUser : BitVec 32 := 0x8000

def has (mode flag : BitVec 32) : Bool := mode &&& flag != 0

def parsePath (env : Env N) (s : Vfs N) (count : Counts) (path : List Char) :
    Option (Parsed N × Counts) :=
  vfsParsePath env.tree s.who s.mounts s.rootMount env.buffer count path

def openPerms (mode : BitVec 32) : BitVec 32 :=
  (if has mode openflagExec then permExec.setWidth 32 else 0) |||
  (if has mode openflagRead then permRead.setWidth 32 else 0) |||
  (if has mode openflagWrite then permWrite.setWidth 32 else 0)

/-- `VFS_int_CreateHandle`; no failure gives the mount back. The message about a bad type looks
into the mount. -/
def vfsIntCreateHandle (env : Env N) (s : Vfs N) (node : N) (mnt : Option ℕ) (mode : BitVec 32) :
    Option (ℤ × Vfs N) :=
  if ¬ env.tree.checkACL s.who node (openPerms mode) then some (-1, s)
  else if ¬ env.tree.goodType node then mnt.map fun _ => (-1, s)
  else
    let (fd, s) := vfsAllocHandle s (has mode openflagUser) node mode
    if fd < 0 then some (-1, s)
    else
      (vfsGetHandle s fd).map fun slot =>
        (fd, s.setHandle slot { s.handle slot with mount := mnt })

def lastSlash (path : List Char) : Option ℕ :=
  ((List.range path.length).filter fun i => path.getD i nul = '/').getLast?

section

variable (env : Env N) (s : Vfs N)

/-- The creation of a missing file in `VFS_OpenEx`; a path without a slash, or a parent without a
mount, is a null pointer. -/
def createMissing (count : Counts) (absPath : List Char) :
    Option (Option (N × ℕ) × Counts) :=
  (lastSlash absPath).bind fun slash =>
    (parsePath env s count (absPath.take slash)).bind fun (parsed, count) =>
      match parsed with
      | .failed _ => some (none, count)
      | .found pnode _ pmnt =>
        pmnt.bind fun pmnt =>
          let giveUp := (dereferenceMount count pmnt.addr).map fun count => (none, count)
          if ¬ env.tree.checkACL s.who pnode ((permExec ||| permWrite).setWidth 32) then giveUp
          else
            match (env.tree.type pnode).bind Methods.mkNod with
            | none => giveUp
            | some mkNod =>
              match mkNod (absPath.drop (slash + 1)) with
              | none => giveUp
              | some node =>
                (dereferenceMount (referenceMount count pmnt.addr) pmnt.addr).map fun count =>
                  (some (node, pmnt.addr), count)

def followLast (count : Counts) (flags : BitVec 32) (node : N)
    (mnt : Option ℕ) : Option (Option (N × Option ℕ) × Counts) :=
  if has flags openflagNolink ∨ ¬ env.tree.symlink node then some (some (node, mnt), count)
  else
    let giveUp := mnt.bind fun mnt => (dereferenceMount count mnt).map fun count => (none, count)
    if (env.tree.text node).val.length > maxPathLen then giveUp
    else if ¬ (env.tree.type node).any Methods.read then giveUp
    else
      mnt.bind fun mnt =>
        (dereferenceMount count mnt).bind fun count =>
          (parsePath env s count (env.tree.text node)).map fun (parsed, count) =>
            match parsed with
            | .failed _ => (none, count)
            | .found node _ mnt => (some (node, mnt.map Mount.addr), count)

/-- `VFS_OpenEx` up to the creation of the handle: the node and the mount it holds, or none if
the call returns -1 before. -/
def openTarget (path : Text) (flags : BitVec 32) :
    Option (Option (N × Option ℕ) × Counts) :=
  (vfsGetAbsPath env.malloc s.chroot s.cwd path).bind fun absPath =>
    match absPath with
    | none => some (none, s.count)
    | some absPath =>
      (parsePath env s s.count absPath).bind fun (parsed, count) =>
        match parsed with
        | .found node _ mnt => followLast env s count flags node (mnt.map Mount.addr)
        | .failed _ =>
          if has flags openflagCreate then
            (createMissing env s count absPath).bind fun (created, count) =>
              match created with
              | none => some (none, count)
              | some (node, mnt) => followLast env s count flags node (some mnt)
          else some (none, count)

/-- `VFS_Open` (`VFS_OpenEx` does not use its `Mode`) -/
def vfsOpen (path : Text) (flags : BitVec 32) : Option (ℤ × Vfs N) :=
  (openTarget env s path flags).bind fun (target, count) =>
    let s := { s with count := count }
    match target with
    | none => some (-1, s)
    | some (node, mnt) => vfsIntCreateHandle env s node mnt flags

def vfsOpenChild (fd : ℤ) (name : List Char) (mode : BitVec 32) :
    Option (ℤ × Vfs N) :=
  match vfsGetHandle s fd with
  | none => some (-1, s)
  | some slot =>
    let h := s.handle slot
    match h.node with
    | none => some (-1, s)
    | some dir =>
      if ¬ env.tree.directory dir then some (-1, s)
      else
        match env.tree.findDir dir with
        | none => some (-1, s)
        | some findDir =>
          match findDir name with
          | none => some (-1, s)
          | some node =>
            h.mount.bind fun mnt =>
              vfsIntCreateHandle env { s with count := referenceMount s.count mnt } node
                (some mnt) mode

/-- `VFS_OpenInode`; `VFS_GetMountByIdent` holds the mount it finds. -/
def vfsOpenInode (ident inode : ℕ) (mode : BitVec 32) :
    Option (ℤ × Vfs N) :=
  match s.mounts.find? fun mnt => mnt.identifier = ident with
  | none => some (-1, s)
  | some mnt =>
    let s := { s with count := referenceMount s.count mnt.addr }
    match env.tree.inode mnt.rootNode with
    | none => some (-1, s)
    | some getNode =>
      match getNode inode with
      | none => some (-1, s)
      | some node => vfsIntCreateHandle env s node (some mnt.addr) mode

end

def vfsClose (s : Vfs N) (fd : ℤ) : Option (Vfs N) :=
  match vfsGetHandle s fd with
  | none => some s
  | some slot =>
    let h := s.handle slot
    (match h.mount with
      | none => some s.count
      | some mnt => dereferenceMount s.count mnt).map fun count =>
        { s with count := count }.setHandle slot { h with node := none }

def vfsReopen (env : Env N) (s : Vfs N) (fd : ℤ) (path : Text) (flags : BitVec 32) :
    Option (ℤ × Vfs N) :=
  match vfsGetHandle s fd with
  | none => some (-1, s)
  | some slot =>
    (vfsOpen env s path flags).bind fun (newf, s) =>
      if newf = -1 then some (-1, s)
      else
        (s.handle slot).mount.bind fun old =>
          (dereferenceMount s.count old).bind fun count =>
            (vfsGetHandle s newf).bind fun opened =>
              let h := s.handle opened
              h.mount.bind fun mnt =>
                let s := { s with count := referenceMount count mnt }.setHandle slot h
                (vfsClose s newf).map fun s => (fd, s)

/-- `VFS_DuplicateFD`; a destination that is not there is a null pointer copied to. -/
def vfsDuplicateFD (s : Vfs N) (srcFD dstFD : ℤ) : Option (ℤ × Vfs N) :=
  match vfsGetHandle s srcFD with
  | none => some (-1, s)
  | some slot =>
    let src := s.handle slot
    match src.node with
    | none => some (-1, s)
    | some node =>
      let isUser := ¬ (srcFD.toNat / kernelFlag % 2 = 1)
      if dstFD ≠ -1 ∧ (vfsGetHandle s dstFD).isSome then some (-1, s)
      else
        let (dstFD, s) :=
          if dstFD = -1 then vfsAllocHandle s isUser node src.mode
          else (dstFD, (vfsSetHandle s dstFD node src.mode).2)
        src.mount.bind fun mnt =>
          let s := { s with count := referenceMount s.count mnt }
          (vfsGetHandle s dstFD).map fun dst => (dstFD, s.setHandle dst src)

/-- `VFS_MkNod`; 1 when the driver made no node. A path that could not be expanded is followed
all the same. -/
def vfsMkNod (env : Env N) (s : Vfs N) (path : Text) : Option (ℤ × Vfs N) :=
  (vfsGetAbsPath env.malloc s.chroot s.cwd path).bind fun absPath =>
    absPath.bind fun absPath =>
      -- the last slash behind the first character, or the first character
      let oldpos := (lastSlash (absPath.drop 1)).elim 0 (· + 1)
      let parent := if (absPath.take oldpos).isEmpty then ['/'] else absPath.take oldpos
      (parsePath env s s.count parent).bind fun (parsed, count) =>
        match parsed with
        | .failed _ => some (-1, { s with count := count })
        | .found node _ mnt =>
          mnt.bind fun mnt =>
            (dereferenceMount count mnt.addr).map fun count =>
              let s := { s with count := count }
              if ¬ env.tree.checkACL s.who node ((permExec ||| permWrite).setWidth 32) then (-1, s)
              else
                match (env.tree.type node).bind Methods.mkNod with
                | none => (-1, s)
                | some mkNod => (if (mkNod (absPath.drop (oldpos + 1))).isNone then 1 else 0, s)

end VfsHandles
