import Acess2.ThreadsModel
import Acess2.WordBitmaps

/-! The physical memory manager of the ARM ports, an instance of `tpl_mm_phys_bitmap.h`, in which a
set bit is a free frame. Beside the bitmap it keeps how many frames are free, and the first and the
last of them, in `int`s. A result `none` is a page fault. -/
namespace PhysMemTemplate

open Function WordBitmaps
open ThreadsModel (wrap32)

/-- The globals; `refMapped` are the mapped pages of `gaiPageReferences`, `refTable` their table. -/
structure PhysMem where
  pageBitmaps : Bitmap 32
  pageReferences : ℕ → BitVec 32
  refMapped : ℕ → Bool
  refTable : Bool
  maxPhysPage : ℕ
  physFirstFree : ℤ
  physLastFree : ℤ
  physNumFree : ℤ

def pageSize : ℕ := 0x1000

def PhysMem.free (s : PhysMem) (n : ℕ) : Bool := bit s.pageBitmaps n

def PhysMem.counted (s : PhysMem) (n : ℕ) : Bool := s.refMapped (n / 1024)

/-- An `int` beside a `tPAddr` -/
def toU32 (x : ℤ) : ℕ := (x % 2 ^ 32).toNat

def setHead : Bitmap 32 → ℕ → ℕ → Bitmap 32 × ℕ × ℕ
  | b, start, 0 => (b, start, 0)
  | b, start, len + 1 =>
    if start % 32 = 0 then (b, start, len + 1) else setHead (setBit b start) (start + 1) len

def setTail : Bitmap 32 → ℕ → ℕ → Bitmap 32
  | b, _, 0 => b
  | b, start, len + 1 => setTail (setBit b start) (start + 1) len

def setRange (b : Bitmap 32) (start len : ℕ) : Bitmap 32 :=
  let (b, start, len) := setHead b start len
  let b := fill b (start / 32) (len / 32) (BitVec.allOnes 32)
  setTail b (start + len / 32 * 32) (len % 32)

def initRange (s : PhysMem) (start len : ℕ) : PhysMem :=
  { s with
    pageBitmaps := setRange s.pageBitmaps start len
    physNumFree := wrap32 (s.physNumFree + len)
    physFirstFree :=
      if s.physFirstFree = -1 ∨ toU32 s.physFirstFree > start then wrap32 start
      else s.physFirstFree
    physLastFree :=
      if toU32 s.physLastFree < start + len then wrap32 (start + len : ℕ) else s.physLastFree }

def lowRAMPages : ℕ := 8192

/-- The kernel image: the first page behind it, and whether the table for the reference counts
exists -/
structure Image where
  endPage : ℕ
  refTable : Bool
  pos : 1 ≤ endPage
  fits : endPage ≤ lowRAMPages

/-- `MM_SetupPhys`: one entry, from the end of the kernel to the end of memory -/
def mmSetupPhys (i : Image) : PhysMem :=
  initRange
    { pageBitmaps := fun _ => 0
      pageReferences := fun _ => 0
      refMapped := fun _ => false
      refTable := i.refTable
      maxPhysPage := lowRAMPages
      physFirstFree := -1
      physLastFree := 0
      physNumFree := 0 }
    i.endPage (lowRAMPages - i.endPage)

/-- `while( addr <= giPhysLastFree )`: where the scan ends, and `nFree`. Each round moves up, so
`last + 1 - addr` rounds do. -/
def scan (s : PhysMem) (pages last : ℕ) : ℕ → ℕ → ℕ → ℕ × ℕ
  | 0, addr, nFree => (addr, nFree)
  | rounds + 1, addr, nFree =>
    if addr ≤ last then
      if s.pageBitmaps (addr / 32) = 0 then scan s pages last rounds ((addr + 32) / 32 * 32) 0
      else if ¬ s.free addr then scan s pages last rounds (addr + 1) 0
      else if nFree + 1 = pages then (addr + 1, nFree + 1)
      else scan s pages last rounds (addr + 1) (nFree + 1)
    else (addr, nFree)

def setReference (s : PhysMem) (n : ℕ) : PhysMem :=
  if s.counted n then { s with pageReferences := update s.pageReferences n 1 } else s

def setUsed (s : PhysMem) (n : ℕ) : PhysMem := { s with pageBitmaps := clearBit s.pageBitmaps n }

def takeFrame (s : PhysMem) (n : ℕ) : PhysMem :=
  let s := setUsed s n
  setReference { s with
    physNumFree := wrap32 (s.physNumFree - 1)
    physFirstFree :=
      if n = toU32 s.physFirstFree then wrap32 (s.physFirstFree + 1) else s.physFirstFree } n

def takeFrames : ℕ → PhysMem → ℕ → PhysMem
  | 0, s, _ => s
  | pages + 1, s, addr => takeFrames pages (takeFrame s addr) (addr + 1)

/-- `MM_AllocPhysRange`: the address of the first frame, or 0. `MaxBits` is not looked at. -/
def mmAllocPhysRange (s : PhysMem) (pages : ℕ) : ℕ × PhysMem :=
  if s.physNumFree < pages then (0, s)
  else
    let first := toU32 s.physFirstFree
    let last := toU32 s.physLastFree
    let (addr, nFree) := scan s pages last (last + 1 - first) first 0
    if nFree ≠ pages ∨ nFree = 0 then (0, s)
    else ((addr - pages) * pageSize % 2 ^ 32, takeFrames pages s (addr - pages))

/-- `MM_AllocPhys`, once memory is set up -/
def mmAllocPhys (s : PhysMem) : ℕ × PhysMem := mmAllocPhysRange s 1

/-- `MM_Allocate` of a page of the reference counts; without a table it is written to all the same.
-/
def mmAllocate (s : PhysMem) (block : ℕ) : Option (Bool × PhysMem) :=
  let (page, s) := mmAllocPhys s
  if page = 0 then some (false, s)
  else if s.refTable then
    some (true, { s with refMapped := update s.refMapped block true })
  else
    let (table, s) := mmAllocPhys s
    if table = 0 then none
    else some (true, { s with
      refTable := true, refMapped := update s.refMapped block true })

/-- Fill the references of the block from the bitmap; the frame itself has two. -/
def fillBlock (s : PhysMem) (n : ℕ) : PhysMem :=
  let refs := fun pg => if pg / 1024 = n / 1024 then (if s.free pg then 0 else 1)
    else s.pageReferences pg
  { s with pageReferences := update refs n 2 }

/-- `MM_RefPhys`. A frame that was free is marked as used; the counts are not touched. -/
def mmRefPhys (s : PhysMem) (pAddr : ℕ) : Option PhysMem :=
  let n := pAddr / pageSize
  if n ≥ s.maxPhysPage then some s
  else if s.free n then some (setReference (setUsed s n) n)
  else if s.counted n then
    some { s with pageReferences := update s.pageReferences n (s.pageReferences n + 1) }
  else (mmAllocate s (n / 1024)).map fun (ok, s) => if ok then fillBlock s n else s

def lessOne (refs : BitVec 32) : BitVec 32 := if refs = 0 then 0 else refs - 1

def dropReference (s : PhysMem) (n : ℕ) : PhysMem :=
  if s.counted n then
    let refs := lessOne (s.pageReferences n)
    let s := { s with pageReferences := update s.pageReferences n refs }
    if refs = 0 then { s with pageBitmaps := setBit s.pageBitmaps n } else s
  else { s with pageBitmaps := setBit s.pageBitmaps n }

def giveFrame (s : PhysMem) (n : ℕ) : PhysMem :=
  { s with
    physNumFree := wrap32 (s.physNumFree + 1)
    physFirstFree :=
      if s.physFirstFree = -1 ∨ s.physFirstFree % 2 ^ 64 > n then wrap32 n else s.physFirstFree
    physLastFree := if s.physLastFree % 2 ^ 64 < n then wrap32 n else s.physLastFree }

/-- `MM_DerefPhys`; it lets through one page more than `MM_RefPhys`. -/
def mmDerefPhys (s : PhysMem) (pAddr : ℕ) : PhysMem :=
  let n := pAddr / pageSize
  if n > s.maxPhysPage then s
  else
    let s := dropReference s n
    if s.free n then giveFrame s n else s

inductive Call where
  | allocPhysRange (pages : ℕ)
  | refPhys (pAddr : ℕ)
  | derefPhys (pAddr : ℕ)
  deriving DecidableEq

def perform (s : PhysMem) : Call → Option PhysMem
  | .allocPhysRange pages => some (mmAllocPhysRange s pages).2
  | .refPhys pAddr => mmRefPhys s pAddr
  | .derefPhys pAddr => some (mmDerefPhys s pAddr)

end PhysMemTemplate
