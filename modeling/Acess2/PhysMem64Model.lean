import Acess2.PhysMemModel
import Acess2.ThreadsModel

/-! The x86_64 physical memory manager (`arch/x86_64/mm_phys.c`), frames numbered from 0.
A result `none` is a kernel panic or a page fault outside `gaMainBitmap`. Beside the bitmaps it
keeps, for each of five classes of addresses, how many frames are free and the first and the last
of them. -/
namespace PhysMem64Model

open Function WordBitmaps
open PhysMemModel (PMemMapEnt PMemType maxAddr)
open ThreadsModel (wrap32)

/-- `giPhysRangeFree`, `giPhysRangeFirst` and `giPhysRangeLast` -/
structure Ranges where
  free : ℕ → BitVec 64
  first : ℕ → ℕ
  last : ℕ → ℕ

/-- The globals. `bitmapWords` is the mapped part of `gaMainBitmap`; `refMapped` are the mapped
pages of `gaiPageReferences`, and `refTables` the tables above them that exist. -/
structure PhysMem where
  mainBitmap : Bitmap 64
  superBitmap : Bitmap 64
  bitmapWords : ℕ
  pageReferences : ℕ → BitVec 32
  refMapped : ℕ → Bool
  refTables : ℕ → ℕ → Bool
  ranges : Ranges
  maxPhysPage : ℕ
  staticAllocPages : List ℕ

def pageSize : ℕ := 0x1000

def PhysMem.used (s : PhysMem) (n : ℕ) : Bool := bit s.mainBitmap n

section

variable (s : PhysMem) (i : ℕ)

def PhysMem.fullWord : Prop := s.mainBitmap i + 1 = 0

def PhysMem.fullSuper : Prop := s.superBitmap i + 1 = 0

instance : Decidable (s.fullWord i) :=
  inferInstanceAs (Decidable (_ = _))

instance : Decidable (s.fullSuper i) :=
  inferInstanceAs (Decidable (_ = _))

end

def PhysMem.counted (s : PhysMem) (n : ℕ) : Bool := s.refMapped (n / 1024)

def mmIntGetRangeID (addr : ℕ) : ℕ :=
  if addr / 2 ^ 32 ≠ 0 then 4
  else if addr / 2 ^ 24 ≠ 0 then 3
  else if addr / 2 ^ 20 ≠ 0 then 2
  else if addr / 2 ^ 16 ≠ 0 then 1
  else 0

def rangeOf (n : ℕ) : ℕ := mmIntGetRangeID (n * pageSize)

/-- The memory map and the static pages; `mapent` is one more than in the source. -/
structure Boot where
  ents : List PMemMapEnt
  staticPages : List ℕ
  mapent : ℕ
  paddr : ℕ

/-- `while(PMemRanges[mapent].Type != PMEMTYPE_FREE && mapent != -1)` -/
def skipToFree (ents : List PMemMapEnt) : ℕ → ℕ
  | 0 => 0
  | m + 1 => if ents[m]?.map PMemMapEnt.type = some .free then m + 1 else skipToFree ents m

/-- `MM_AllocPhys` before there are bitmaps: the first static page goes. -/
def takeStatic (pages : List ℕ) : List ℕ :=
  match pages.findIdx? (· ≠ 0) with
  | none => pages
  | some i => pages.set i 0

/-- A round of the loop that allocates the bitmaps: a static page, or one that is mapped, with
`tables` tables; the result says which. -/
def bootRound (tables : ℕ) (b : Boot) : Option (Bool × Boot) :=
  let mapent := skipToFree b.ents b.mapent
  -- out of memory during init
  (if mapent = 0 then none else b.ents[mapent - 1]?).map fun ent =>
    let paddr := if b.paddr + 1 = 2 ^ 64 then ent.start else b.paddr
    let (mapped, staticPages) :=
      match b.staticPages.findIdx? (· = 0) with
      | some i => (false, b.staticPages.set i paddr)
      | none => (true, takeStatic^[tables] b.staticPages)
    let paddr := (paddr + 0x1000) % 2 ^ 64
    if (paddr + 2 ^ 64 - ent.start) % 2 ^ 64 > ent.length then
      (mapped, { b with staticPages, paddr, mapent := mapent - 1 })
    else
      -- this hides some actually valid memory
      let ent := { ent with
        start := (ent.start + 0x1000) % 2 ^ 64
        length := (ent.length + 2 ^ 64 - 0x1000) % 2 ^ 64 }
      (mapped, { b with staticPages, paddr, mapent, ents := b.ents.set (mapent - 1) ent })

/-- `while( todo )`, for `rounds` rounds at most; `tables k` is what the `k`-th last page to be
mapped takes. -/
def allocBitmaps (tables : ℕ → ℕ) : ℕ → ℕ → Boot → Option Boot
  | _, 0, b => some b
  | 0, _ + 1, _ => none
  | rounds + 1, todo + 1, b =>
    (bootRound (tables (todo + 1)) b).bind fun (mapped, b) =>
      allocBitmaps tables rounds (if mapped then todo else todo + 1) b

/-- Clear the bits of `size` frames: inside one word, or the upper part of a word, whole words
and the lower part of one. -/
def clearRange (b : Bitmap 64) (base size : ℕ) : Bitmap 64 :=
  if base % 64 + size < 64 then
    let bits := (BitVec.twoPow 64 size - 1) <<< (base % 64)
    update b (base / 64) (b (base / 64) &&& ~~~ bits)
  else
    let (b, base, size) :=
      if base % 64 ≠ 0 then
        let bits := BitVec.twoPow 64 (base % 64) - 1
        (update b (base / 64) (b (base / 64) &&& bits),
          base + (64 - base % 64), size - (64 - base % 64))
      else (b, base, size)
    let b := fill b (base / 64) (size / 64) 0
    let base := base + size / 64 * 64
    let val := BitVec.twoPow 64 (size % 64) - 1
    if size % 64 ≠ 0 then update b (base / 64) (b (base / 64) &&& ~~~ val) else b

/-- `memset` to 255, and the free areas of the map cleared -/
def clearFree (words : ℕ) (ents : List PMemMapEnt) : Bitmap 64 :=
  ents.foldl (fun b ent =>
    if ent.type ≠ .free then b else clearRange b (ent.start / pageSize) (ent.length / pageSize))
    (fill (fun _ => 0) 0 words (BitVec.allOnes 64))

/-- "Free the unused static allocs" goes through those with no page, and clears frame 0. -/
def freeStatic (pages : List ℕ) (b : Bitmap 64) : Bitmap 64 :=
  pages.foldl (fun b page => if page = 0 then clearBit b (page / pageSize) else b) b

/-- Fill the super bitmap. The bound of the loop is that for words of the super bitmap. -/
def fillSuper (b : Bitmap 64) (words : ℕ) : Bitmap 64 :=
  (List.range words).foldl
    (fun sup i => if b i + 1 = 0 then setBit sup i else sup) (fun _ => 0)

def superWords (maxPhysPage : ℕ) : ℕ :=
  ((wrap32 (wrap32 (maxPhysPage / 64 : ℕ) + 63)) / 64).toNat

def Ranges.meet (c : Ranges) (n : ℕ) : Ranges :=
  let r := rangeOf n
  { free := update c.free r (c.free r + 1)
    first := if c.first r = 0 then update c.first r n else c.first
    last := update c.last r n }

/-- `for( base = 1; base < giMaxPhysPage; base ++ )` -/
def countFree (b : Bitmap 64) (maxPhysPage : ℕ) : Ranges :=
  (List.range' 1 (maxPhysPage - 1)).foldl
    (fun c n => if bit b n then c else c.meet n) ⟨fun _ => 0, fun _ => 0, fun _ => 0⟩

structure Machine where
  ents : List PMemMapEnt
  refTables : ℕ → ℕ → Bool
  mapTables : ℕ → ℕ

/-- `MM_InitPhys`, with at most `rounds` rounds of its loop. The numbers of pages are `int`s, and
there is no bitmap for more. -/
def mmInitPhys (rounds : ℕ) (m : Machine) : Option PhysMem :=
  let maxPhysPage := maxAddr m.ents / pageSize
  let superPages := ((maxPhysPage + 64 * 8 - 1) / (64 * 8) + 0xFFF) / 0x1000
  let numPages := ((maxPhysPage + 7) / 8 + 0xFFF) / 0x1000
  let todo := numPages * 2 + superPages
  if numPages = 0 ∨ 2 ^ 31 ≤ todo then none
  else
    (allocBitmaps m.mapTables rounds todo ⟨m.ents, [0, 0, 0], m.ents.length, 2 ^ 64 - 1⟩).map
      fun boot =>
        let b := freeStatic boot.staticPages (clearFree (numPages * 512) boot.ents)
        { mainBitmap := b
          superBitmap := fillSuper b (superWords maxPhysPage)
          bitmapWords := numPages * 512
          pageReferences := fun _ => 0
          refMapped := fun _ => false
          refTables := m.refTables
          ranges := countFree b maxPhysPage
          maxPhysPage := maxPhysPage
          staticAllocPages := boot.staticPages }

def rangeOfBits (maxBits : ℤ) : ℕ :=
  if maxBits ≤ 0 ∨ 64 ≤ maxBits then 4 else mmIntGetRangeID (2 ^ maxBits.toNat - 1)

/-- `while(giPhysRangeFree[rangeID] == 0 && rangeID) rangeID --;` -/
def pickRange (c : Ranges) : ℕ → ℕ
  | 0 => 0
  | r + 1 => if c.free (r + 1) = 0 then pickRange c r else r + 1

/-- The scan up to `giPhysRangeLast`: where it ends, and `nFree` -/
def scan (s : PhysMem) (pages last : ℕ) : ℕ → ℕ → ℕ → ℕ × ℕ
  | 0, addr, nFree => (addr, nFree)
  | rounds + 1, addr, nFree =>
    if addr ≤ last then
      if s.fullSuper (addr / 4096) then scan s pages last rounds ((addr + 4096) / 4096 * 4096) 0
      else if s.fullWord (addr / 64) then scan s pages last rounds ((addr + 64) / 64 * 64) 0
      else if s.used addr then scan s pages last rounds (addr + 1) 0
      else if nFree + 1 = pages then (addr + 1, nFree + 1)
      else scan s pages last rounds (addr + 1) (nFree + 1)
    else (addr, nFree)

def setUsed (s : PhysMem) (n : ℕ) : PhysMem := { s with mainBitmap := setBit s.mainBitmap n }

def setReference (s : PhysMem) (n : ℕ) : PhysMem :=
  if s.counted n then { s with pageReferences := update s.pageReferences n 1 } else s

def markBlock (s : PhysMem) (n : ℕ) : PhysMem :=
  if s.fullWord (n / 64) then { s with superBitmap := setBit s.superBitmap (n / 64) } else s

def Ranges.take (c : Ranges) (n : ℕ) : Ranges :=
  let r := rangeOf n
  { c with
    free := update c.free r (c.free r - 1)
    first := if n = c.first r then update c.first r (c.first r + 1) else c.first }

def takeFrame (s : PhysMem) (n : ℕ) : PhysMem :=
  let s := setReference (setUsed s n) n
  { s with ranges := s.ranges.take n }

def takeFrames : ℕ → PhysMem → ℕ → PhysMem
  | 0, s, _ => s
  | pages + 1, s, addr => takeFrames pages (takeFrame s addr) (addr + 1)

/-- Update the super bitmap: all rounds look at the first word. -/
def updateSuper : ℕ → PhysMem → ℕ → PhysMem
  | 0, s, _ => s
  | rounds + 1, s, addr => updateSuper rounds (markBlock s addr) addr

/-- `Pages/64` after the two updates of `Pages`, an `int` -/
def superRounds (pages addr : ℕ) : ℕ :=
  ((wrap32 (wrap32 (pages + (addr % 64 : ℕ)) + 63)) / 64).toNat

/-- `MM_AllocPhysRange`: the address of the first frame, or 0 -/
def mmAllocPhysRange (s : PhysMem) (pages : ℕ) (maxBits : ℤ) : ℕ × PhysMem :=
  let rangeID := pickRange s.ranges (rangeOfBits maxBits)
  if s.ranges.free rangeID = 0 then (0, s)
  else if (s.ranges.free rangeID).toNat < pages then (0, s)
  else
    let first := s.ranges.first rangeID
    let last := s.ranges.last rangeID
    let (addr, nFree) := scan s pages last (last + 1 - first) first 0
    if nFree ≠ pages ∨ nFree = 0 then (0, s)
    else
      let ret := addr - pages
      let s := takeFrames pages s ret
      (ret * pageSize % 2 ^ 64, updateSuper (superRounds pages ret) s ret)

def mmAllocPhys (s : PhysMem) : ℕ × PhysMem :=
  match s.staticAllocPages.findIdx? (· ≠ 0) with
  | some i =>
    (s.staticAllocPages.getD i 0, { s with staticAllocPages := s.staticAllocPages.set i 0 })
  | none => mmAllocPhysRange s 1 (-1)

def Ranges.give (c : Ranges) (n : ℕ) : Ranges :=
  let r := rangeOf n
  { free := update c.free r (c.free r + 1)
    first := if c.first r > n then update c.first r n else c.first
    last := if c.last r < n then update c.last r n else c.last }

section

variable (s : PhysMem)

/-- One reference less; the frame is free when none is left, or none was counted. -/
def dropReference (n : ℕ) : PhysMem :=
  if s.counted n then
    let s := { s with
      pageReferences := update s.pageReferences n (s.pageReferences n - 1) }
    if s.pageReferences n = 0 then { s with mainBitmap := clearBit s.mainBitmap n } else s
  else { s with mainBitmap := clearBit s.mainBitmap n }

def unmarkBlock (n : ℕ) : PhysMem :=
  if s.fullWord (n / 64) then s else { s with superBitmap := clearBit s.superBitmap (n / 64) }

def derefFrame (n : ℕ) : PhysMem :=
  let s := dropReference s n
  unmarkBlock (if s.used n then s else { s with ranges := s.ranges.give n }) n

def mmDerefPhys (pAddr : ℕ) : Option PhysMem :=
  let n := pAddr / pageSize
  if n > s.maxPhysPage then some s
  else if s.bitmapWords ≤ n / 64 then none
  else some (derefFrame s n)

def addTable (level idx : ℕ) : PhysMem :=
  let entries := update (s.refTables level) idx true
  { s with refTables := update s.refTables level entries }

end

/-- The tables above a page of the reference counts (`MM_GetPageEntryPtr`), while there is memory -/
def ensureTables (block : ℕ) : ℕ → PhysMem → Bool × PhysMem
  | 0, s => (true, s)
  | level + 1, s =>
    let idx := block / 2 ^ (9 * (level + 1))
    if s.refTables level idx then ensureTables block level s
    else
      let (tmp, s) := mmAllocPhys s
      if tmp = 0 then (false, s) else ensureTables block level (addTable s level idx)

section

variable (s : PhysMem)

def mmAllocate (block : ℕ) : Option (Bool × PhysMem) :=
  -- keeps things neat; a failure shows again in `MM_Map`
  let (_, s) := ensureTables block 3 s
  let (ret, s) := mmAllocPhys s
  if ret = 0 then some (false, s)
  else
    let (ok, s) := ensureTables block 3 s
    if ok ∧ s.refMapped block = false then
      some (true, { s with refMapped := update s.refMapped block true })
    else (mmDerefPhys s ret).map fun s => (false, s)

/-- Fill block. `page_base` is an `int`. -/
def fillBlock (n : ℕ) : Option PhysMem :=
  let pageBase := n / 1024 * 1024 % 2 ^ 32
  if 2 ^ 31 ≤ pageBase ∨ s.counted pageBase = false then none
  else some { s with
    pageReferences := fun pg =>
      if pg / 1024 = pageBase / 1024 then (if s.used pg then 1 else 0) else s.pageReferences pg }

/-- Allocate the reference page of frame `n` if it is not there. -/
def needReference (n : ℕ) : Option (Bool × PhysMem) :=
  if s.counted n then some (true, s)
  else
    (mmAllocate s (n / 1024)).bind fun (ok, s) =>
      if ok then (fillBlock s n).map fun s => (true, s) else some (false, s)

def addReference (n : ℕ) : PhysMem :=
  { s with pageReferences := update s.pageReferences n (s.pageReferences n + 1) }

/-- `MM_RefPhys`. A frame that was free is marked as used; the counts are not touched. -/
def mmRefPhys (pAddr : ℕ) : Option PhysMem :=
  let n := pAddr / pageSize
  if n > s.maxPhysPage then some s
  else if s.bitmapWords ≤ n / 64 then none
  else if s.used n then
    (needReference s n).map fun (ok, s) => if ok then addReference s n else s
  else some (setReference (markBlock (setUsed s n) n) n)

end

inductive Call where
  | allocPhysRange (pages : ℕ) (maxBits : ℤ)
  | allocPhys
  | refPhys (pAddr : ℕ)
  | derefPhys (pAddr : ℕ)
  deriving DecidableEq

def perform (s : PhysMem) : Call → Option PhysMem
  | .allocPhysRange pages maxBits => some (mmAllocPhysRange s pages maxBits).2
  | .allocPhys => some (mmAllocPhys s).2
  | .refPhys pAddr => mmRefPhys s pAddr
  | .derefPhys pAddr => mmDerefPhys s pAddr

end PhysMem64Model
