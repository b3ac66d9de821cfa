import Acess2.GuardedRuns
import Acess2.VfsHandles

/-! Mounting and unmounting (`vfs/mount.c`).
Beside the state of the code stands the mount that each mount was mounted in: the one that
`VFS_ParsePath` found for its mountpoint, and charged for it. -/
namespace VfsMounts

open CharBuffers VfsModel VfsHandles

variable {N : Type}

/-- `tVFS_Driver`, for one call: `detect` is the rank that `Detect` gives the device. -/
structure Driver (N : Type) where
  name : List Char
  detect : Option ℤ
  initDevice : List Char → List (List Char) → Option N

/-- Where the root mount has been freed, `vfs.rootMount` is none. `parent` is not kept by the code.
-/
structure Mounts (N : Type) where
  vfs : Vfs N
  root : Option ℕ
  nextIdent : ℕ
  parent : ℕ → Option ℕ

/-- The values 0, `-ENOENT`, -1 and -2 of `VFS_Mount` -/
inductive Result where
  | ok | noEntry | failed | noMemory
  deriving DecidableEq

def Mounts.setCount (s : Mounts N) (count : Counts) : Mounts N :=
  { s with vfs := { s.vfs with count := count } }

def Mounts.setMounts (s : Mounts N) (mounts : List (Mount N)) (root : Option ℕ) : Mounts N :=
  { s with
    vfs := { s.vfs with
      mounts := mounts
      rootMount := root.bind fun addr => mounts.find? fun mnt => mnt.addr = addr }
    root := root }

def bestDriver : List (Driver N) → Option (Driver N × ℤ) → Option (Driver N × ℤ)
  | [], best => best
  | fs :: drivers, best =>
    match fs.detect with
    | none => bestDriver drivers best
    | some rank =>
      if rank = 0 then bestDriver drivers best
      else if best.all fun (_, bestrank) => rank > bestrank then
        bestDriver drivers (some (fs, rank))
      else bestDriver drivers best

def chooseDriver (env : Env N) (drivers : List (Driver N)) (vfs : Vfs N)
    (device filesystem : Text) :
    Option (Except Result (Driver N) × Vfs N) :=
  if filesystem.val ≠ [] then
    match drivers.find? fun fs => fs.name = filesystem.val with
    | none => some (.error .noEntry, vfs)
    | some fs => some (.ok fs, vfs)
  else
    (vfsOpen env vfs device openflagRead).bind fun (fd, vfs) =>
      if fd = -1 then some (.error .noEntry, vfs)
      else
        (vfsClose vfs fd).map fun vfs =>
          match bestDriver drivers none with
          | none => (.error .failed, vfs)
          | some (fs, _) => (.ok fs, vfs)

/-- `VFS_Mount` once the parent is known. With nothing mounted `parent_mnt` has no value, and the
failing exits follow it all the same. -/
def addMount (s : Mounts N) (fs : Driver N) (device mountPoint options : Text)
    (malloc parent : Option ℕ) :
    Option (Result × Mounts N) :=
  let giveUp := parent.bind fun parent =>
    (dereferenceMount s.vfs.count parent).map fun count => (Result.noMemory, s.setCount count)
  match malloc with
  | none => giveUp
  | some addr =>
    -- the search for the next comma begins at the last one, and finds it for ever
    if options.val.contains ',' then none
    else
      match fs.initDevice device [options] with
      | none => giveUp
      | some rootNode =>
        let mnt : Mount N :=
          { addr := addr
            mountPoint := mountPoint
            mountPointLen := if mountPoint.val = ['/'] then 0 else mountPoint.val.length
            rootNode := rootNode
            identifier := s.nextIdent }
        let s := s.setMounts (s.vfs.mounts ++ [mnt]) (s.root.or (some addr))
        some (.ok, { s.setCount (Function.update s.vfs.count addr 0) with
          nextIdent := s.nextIdent + 1
          parent := Function.update s.parent addr parent })

def vfsMount [DecidableEq N] (env : Env N) (drivers : List (Driver N)) (s : Mounts N)
    (device mountPoint filesystem options : Text) (malloc : Option ℕ) :
    Option (Result × Mounts N) :=
  (chooseDriver env drivers s.vfs device filesystem).bind fun (choice, vfs) =>
    let s := { s with vfs := vfs }
    match choice with
    | .error result => some (result, s)
    | .ok fs =>
      if s.vfs.mounts.isEmpty then addMount s fs device mountPoint options malloc none
      else
        (parsePath env s.vfs s.vfs.count mountPoint).bind fun (parsed, count) =>
          let s := s.setCount count
          match parsed with
          | .failed _ => some (.failed, s)
          | .found node _ parent =>
            parent.bind fun parent =>
              if parent.rootNode = node then some (.failed, s)
              else addMount s fs device mountPoint options malloc (some parent.addr)

def firstMatch (mounts : List (Mount N)) (mnt : Mount N) : Option (Mount N) :=
  mounts.find? fun mpmnt =>
    mpmnt.mountPoint.val.take mpmnt.mountPointLen = mnt.mountPoint.val.take mpmnt.mountPointLen ∧
      charAt mnt.mountPoint mpmnt.mountPointLen = '/'

variable (s : Mounts N)

/-- `VFS_int_Unmount`, of a mount that has been taken out of the list -/
def vfsIntUnmount (mnt : Mount N) : Option (Mounts N) :=
  if s.root = some mnt.addr then some s
  else
    match firstMatch s.vfs.mounts mnt with
    | none => some s
    | some mpmnt => (dereferenceMount s.vfs.count mpmnt.addr).map s.setCount

def removeMount (mnt : Mount N) : Option (Mounts N) :=
  vfsIntUnmount (s.setMounts (s.vfs.mounts.filter fun m => m.addr ≠ mnt.addr) s.root) mnt

/-- `VFS_Unmount`, with none for `EOK` -/
def vfsUnmount (path : Text) : Option (Option Errno × Mounts N) :=
  match s.vfs.mounts.find? fun mnt => mnt.mountPoint = path with
  | none => some (some .enoent, s)
  | some mnt =>
    if s.vfs.count mnt.addr ≠ 0 then some (some .ebusy, s)
    else (removeMount s mnt).map fun s => (none, s)

/-- One round of the loop in `VFS_UnmountAll`; the mount at the address is still in the list. -/
def unmountOne (addr : ℕ) : Option (Mounts N) :=
  match s.vfs.mounts.find? fun mnt => mnt.addr = addr with
  | none => some s
  | some mnt =>
    if s.vfs.count addr < 0 then none
    else if s.vfs.count addr > 0 then some s
    else removeMount s mnt

/-- `VFS_UnmountAll`: each round takes one mount out, or none. -/
def vfsUnmountAll : Option (ℤ × Mounts N) :=
  if s.vfs.mounts.isEmpty then some (-1, s)
  else
    (GuardedRuns.run unmountOne s (s.vfs.mounts.map Mount.addr)).map fun t =>
      ((s.vfs.mounts.length - t.vfs.mounts.length : ℕ), t)

end VfsMounts
