import Acess2.WordBitmaps

/-! The x86 physical memory manager (`arch/x86/mm_phys.c`), frames numbered from 0.
A result `none` is a kernel panic, or a read outside `gaPageBitmap`. `tPAddr` is 32 bits wide. -/
namespace PhysMemModel

open Function WordBitmaps

inductive PMemType where
  | free | used | reserved | nvram | unmapped
  deriving DecidableEq

structure PMemMapEnt where
  start : ℕ
  length : ℕ
  type : PMemType
  deriving DecidableEq

/-- The globals; `refMapped` are the mapped pages of `gaPageReferences`, `refTable` their table. -/
structure PhysMem where
  pageBitmap : Bitmap 32
  superBitmap : Bitmap 32
  pageReferences : ℕ → BitVec 32
  refMapped : ℕ → Bool
  refTable : Bool
  physAlloc : BitVec 64
  pageCount : ℕ
  lastPossibleFree : ℕ

def pageSize : ℕ := 4096

def PhysMem.used (s : PhysMem) (n : ℕ) : Bool := bit s.pageBitmap n

variable (s : PhysMem) (i : ℕ)

def PhysMem.fullWord : Prop := s.pageBitmap i = BitVec.allOnes 32

def PhysMem.fullSuper : Prop := s.superBitmap i = BitVec.allOnes 32

instance : Decidable (s.fullWord i) := by
  unfold PhysMem.fullWord
  infer_instance

instance : Decidable (s.fullSuper i) := by
  unfold PhysMem.fullSuper
  infer_instance

def PhysMem.counted (s : PhysMem) (n : ℕ) : Bool := s.refMapped (n / 1024)

def maxAddr (ents : List PMemMapEnt) : ℕ :=
  ents.foldl (fun maxAddr ent =>
    if ent.type = .free ∨ ent.type = .used then
      if (ent.start + ent.length) % 2 ^ 64 > maxAddr then (ent.start + ent.length) % 2 ^ 64
      else maxAddr
    else maxAddr) 0

def clearHead : Bitmap 32 → ℕ → ℕ → Bitmap 32 × ℕ × ℕ
  | b, startpg, 0 => (b, startpg, 0)
  | b, startpg, pgcount + 1 =>
    if startpg % 32 = 0 then (b, startpg, pgcount + 1)
    else clearHead (clearBit b startpg) (startpg + 1) pgcount

def clearTail : Bitmap 32 → ℕ → ℕ → Bitmap 32
  | b, _, 0 => b
  | b, startpg, pgcount + 1 => clearTail (clearBit b startpg) (startpg + 1) pgcount

/-- Clear the bits of `pgcount` frames: single bits, whole words, single bits. -/
def clearPages (b : Bitmap 32) (startpg pgcount : ℕ) : Bitmap 32 :=
  let (b, startpg, pgcount) := clearHead b startpg pgcount
  let b := fill b (startpg / 32) (pgcount / 32) 0
  clearTail b (startpg + (pgcount - pgcount % 32)) (pgcount % 32)

def installEnt (b : Bitmap 32) (physAlloc : BitVec 64) (ent : PMemMapEnt) : Bitmap 32 × BitVec 64 :=
  match ent.type with
  | .free =>
    let startpg := ent.start / pageSize
    let pgcount := ent.length / pageSize
    if startpg > 2 ^ 20 then (b, physAlloc)
    else
      let pgcount := if startpg + pgcount > 2 ^ 20 then 2 ^ 20 - startpg else pgcount
      (clearPages b startpg pgcount, physAlloc)
  | .used => (b, physAlloc + BitVec.ofNat 64 (ent.length / pageSize))
  | .reserved | .nvram | .unmapped => (b, physAlloc)

def fillSuper (b : Bitmap 32) (words : ℕ) : Bitmap 32 :=
  (List.range words).foldl
    (fun sup i => if b i + 1 = 0 then setBit sup i else sup) (fun _ => 0)

def installBitmap (ents : List PMemMapEnt) (b : Bitmap 32) : Bitmap 32 × BitVec 64 :=
  ents.foldl (fun (b, physAlloc) ent => installEnt b physAlloc ent) (b, 0)

def pageCountOf (ents : List PMemMapEnt) : ℕ := min (maxAddr ents) (2 ^ 32) / pageSize

/-- `MM_Install`. The `memsetd` covers whole words only: of a last word that `giPageCount` cuts off,
no frame is marked used. -/
def mmInstall (refTable : Bool) (ents : List PMemMapEnt) : PhysMem :=
  let pageCount := pageCountOf ents
  let b := fill (fun _ => 0) 0 (pageCount / 32) (BitVec.allOnes 32)
  let (b, physAlloc) := installBitmap ents b
  { pageBitmap := b
    superBitmap := fillSuper b ((pageCount + 31) / 32)
    pageReferences := fun _ => 0
    refMapped := fun _ => false
    refTable := refTable
    physAlloc := physAlloc
    pageCount := pageCount
    lastPossibleFree := (pageCount + (2 ^ 64 - 1)) % 2 ^ 64 }

def addrClasses : List ℕ := [0, 16, 20, 24, 32, 64]

/-- `1UL << (addrClasses[i] - 12)`; x86 takes a shift count modulo 32, and `addrClasses` has
entries below 12 and above 43. -/
def classPage (i : ℕ) : ℕ := 2 ^ ((addrClasses.getD i 0 + 20) % 32)

section

/-- `for( indx = first; indx < last; )`; each round moves up, so `last - first` rounds do. -/
def scanRange (last : ℕ) : ℕ → ℕ → ℕ
  | 0, indx => indx
  | rounds + 1, indx =>
    if indx < last then
      if s.fullSuper (indx / 1024) then scanRange last rounds (indx + 1024)
      else if s.fullWord (indx / 32) then scanRange last rounds (indx + 32)
      else if s.used indx then scanRange last rounds (indx + 1)
      else indx
    else indx

/-- The classes from `i` down: the last possible free frame, and the one found. A find in class 1
counts as none. -/
def scanClasses : ℕ → ℕ → ℕ × Option ℕ
  | 0, lastPossibleFree => (lastPossibleFree, none)
  | i + 1, lastPossibleFree =>
    let first := classPage i
    let last := classPage (i + 1) - 1
    if first > lastPossibleFree then scanClasses i lastPossibleFree
    else
      let last := if last > lastPossibleFree then lastPossibleFree else last
      let indx := scanRange s last (last - first) first
      if indx < last then (lastPossibleFree, if i + 1 ≤ 1 then none else some indx)
      else scanClasses i first

def markBlock (n : ℕ) : PhysMem :=
  if s.fullWord (n / 32) then { s with superBitmap := setBit s.superBitmap (n / 32) } else s

def setReference (n : ℕ) : PhysMem :=
  if s.counted n then { s with pageReferences := update s.pageReferences n 1 } else s

def setUsed (n : ℕ) : PhysMem :=
  { s with pageBitmap := setBit s.pageBitmap n, physAlloc := s.physAlloc + 1 }

def mmAllocPhys : Option (ℕ × PhysMem) :=
  let (lastPossibleFree, indx) := scanClasses s 5 s.lastPossibleFree
  let s := { s with lastPossibleFree := lastPossibleFree }
  match indx with
  | none => some (0, s)
  | some indx =>
    if indx > 0xFFFFF then none
    else if indx ≥ s.pageCount then some (0, s)
    else some (indx * pageSize, markBlock (setUsed (setReference s indx) indx) indx)

end

/-- `idx` and `sidx`: a word of the bitmap (below the first one when negative) and a bit of it -/
structure Position where
  idx : ℤ
  sidx : ℕ
  deriving DecidableEq

def Position.down (p : Position) : Position :=
  if p.sidx = 0 then ⟨p.idx - 1, 31⟩ else ⟨p.idx, p.sidx - 1⟩

def Position.up (p : Position) : Position :=
  if p.sidx + 1 = 32 then ⟨p.idx + 1, 0⟩ else ⟨p.idx, p.sidx + 1⟩

def readWord (s : PhysMem) (idx : ℤ) : Option (BitVec 32) :=
  if 0 ≤ idx ∧ idx < 1024 * 1024 / 32 then some (s.pageBitmap idx.toNat) else none

/-- Find a free page, downwards. The bulk skip does not look whether it has left the array. -/
def findFree (s : PhysMem) : ℕ → Position → Option Position
  | 0, _ => none
  | rounds + 1, p =>
    (readWord s p.idx).bind fun word =>
      if word = BitVec.allOnes 32 then findFree s rounds ⟨p.idx - 1, 31⟩
      else if word.getLsbD p.sidx then
        if p.down.idx < 0 then some p.down else findFree s rounds p.down
      else some p

def checkRange (s : PhysMem) : ℕ → Position → Option (ℕ × Position)
  | 0, p => some (0, p)
  | left + 1, p =>
    (readWord s p.idx).bind fun word =>
      if word.getLsbD p.sidx then some (left + 1, p)
      else if p.down.idx < 0 then some (left + 1, p.down)
      else checkRange s left p.down

/-- `while( idx >= 0 )`; every round that goes on has moved down. -/
def searchRange (s : PhysMem) (pages : ℕ) : ℕ → Position → Option Position
  | 0, _ => none
  | rounds + 1, p =>
    if p.idx < 0 then some p
    else
      (findFree s (rounds + 1) p).bind fun p =>
        if p.idx < 0 then some p
        else
          (checkRange s pages p).bind fun (left, p) =>
            if left = 0 then some p else searchRange s pages rounds p

def markRange : ℕ → PhysMem → Position → PhysMem × Position
  | 0, s, p => (s, p)
  | pages + 1, s, p =>
    let n := p.idx.toNat * 32 + p.sidx
    markRange pages (setUsed (setReference s n) n) p.up

/-- The frame the search starts at; `PHYS_BITS` is 32. -/
def rangeStart (s : PhysMem) (maxBits : ℕ) : ℕ :=
  let maxBits := if maxBits > 32 then 32 else maxBits
  if s.lastPossibleFree > 2 ^ (maxBits - 12) then 2 ^ (maxBits - 12) else s.lastPossibleFree

/-- `MM_AllocPhysRange`, for `MaxBits >= 12`. The address is computed from where the marking
ended. -/
def mmAllocPhysRange (s : PhysMem) (pages maxBits : ℕ) : Option (ℕ × PhysMem) :=
  let start := rangeStart s maxBits
  (searchRange s pages (start + 2) ⟨(start / 32 : ℕ), start % 32⟩).bind fun p =>
    if p.idx < 0 then some (0, s)
    else
      let (s, p) := markRange pages s p
      some ((p.idx.toNat * 2 ^ 17 ||| p.sidx * 2 ^ 12) % 2 ^ 32, markBlock s (p.idx.toNat * 32))

section

/-- `MM_Allocate` of a reference page, and of its table; address 0 ends in a panic. -/
def allocateRefPage (block : ℕ) : Option PhysMem :=
  (mmAllocPhys s).bind fun (paddr, s) =>
    (if s.refTable then some (paddr, s) else mmAllocPhys s).bind fun (tmp, s) =>
      if paddr = 0 ∨ tmp = 0 then none
      else some { s with refTable := true, refMapped := update s.refMapped block true }

def populate (block : ℕ) : PhysMem :=
  { s with pageReferences := fun n =>
      if n / 1024 = block then (if s.used n then 1 else 0) else s.pageReferences n }

/-- The reference page of frame `n` is made and filled when it is not there yet. -/
def needReference (n : ℕ) : Option PhysMem :=
  if s.counted n then some s
  else (allocateRefPage s (n / 1024)).map fun s => populate s (n / 1024)

def mmRefPhys (pAddr : ℕ) : Option PhysMem :=
  let n := pAddr / pageSize
  if n ≥ s.pageCount then some s
  else
    (needReference s n).map fun s =>
      let s := { s with
        pageReferences := update s.pageReferences n (s.pageReferences n + 1) }
      markBlock (if s.used n then s else setUsed s n) n

/-- Give the frame back. The super bit goes only with the last used frame of the word. -/
def freeFrame (n : ℕ) : PhysMem :=
  let s := { s with physAlloc := s.physAlloc - 1, pageBitmap := clearBit s.pageBitmap n }
  if s.pageBitmap (n / 32) = 0 then { s with superBitmap := clearBit s.superBitmap (n / 32) } else s

def mmDerefPhys (pAddr : ℕ) : PhysMem :=
  let n := pAddr / pageSize
  if n ≥ s.pageCount then s
  else if ¬ s.used n then s
  else
    let s := if s.lastPossibleFree < n then { s with lastPossibleFree := n } else s
    if ¬ s.counted n then freeFrame s n
    else
      let s := { s with
        pageReferences := update s.pageReferences n (s.pageReferences n - 1) }
      if s.pageReferences n = 0 then freeFrame s n else s

end

inductive Call where
  | allocPhys
  | refPhys (pAddr : ℕ)
  | derefPhys (pAddr : ℕ)
  deriving DecidableEq

def perform (s : PhysMem) : Call → Option PhysMem
  | .allocPhys => (mmAllocPhys s).map Prod.snd
  | .refPhys pAddr => mmRefPhys s pAddr
  | .derefPhys pAddr => some (mmDerefPhys s pAddr)

end PhysMemModel
