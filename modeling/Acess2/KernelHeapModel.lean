import Acess2.ByteMemory
import Mathlib.Tactic.NormNum

/-! # The kernel heap of KernelLand/Kernel/heap.c

Heads and feet live inside the managed memory, so the model keeps bytes: every field
access is a load or a store at the address the C code computes. Words wrap at the
machine width. An access to an unmapped page, a failed ASSERT and a panic all end the
call without a result (`none`). The heap mutex is taken around each call and is not
modelled; the watchpoint registers and the log output have no effect on the heap. -/
namespace KernelHeapModel

open ByteMemory

/-- What heap.c takes from the architecture: the word size, the members of tHeapHead, the bounds of
the heap. Size is the first member; tHeapFoot is a magic word and the back link. -/
structure Layout where
  wordBytes : ℕ
  validSizeOfs : ℕ
  fileOfs : ℕ
  lineOfs : ℕ
  magicOfs : ℕ
  timeOfs : ℕ
  headBytes : ℕ
  invlPtr : ℕ
  kheapBase : ℕ
  kheapMax : ℕ
  word_cases : wordBytes = 4 ∨ wordBytes = 8 := by decide
  size_end : wordBytes ≤ validSizeOfs := by decide
  validSize_end : validSizeOfs + 4 ≤ fileOfs := by decide
  file_end : fileOfs + wordBytes ≤ lineOfs := by decide
  line_end : lineOfs + 4 ≤ magicOfs := by decide
  magic_end : magicOfs + wordBytes ≤ timeOfs := by decide
  time_end : timeOfs + 8 ≤ headBytes := by decide
  /-- Even the smallest block has room for Size, Magic and its foot. -/
  magic_foot : magicOfs + wordBytes + 2 * wordBytes ≤ 8 * wordBytes := by decide
  head_word : headBytes % wordBytes = 0 := by decide
  base_page : kheapBase % 4096 = 0 := by decide
  max_page : kheapMax % 4096 = 0 := by decide
  base_pos : 4096 ≤ kheapBase := by decide
  base_lt_max : kheapBase < kheapMax := by decide
  init_fits : kheapBase + 0x8000 ≤ kheapMax := by decide
  /-- The area is shorter than what is left of the address space above it. -/
  above_max : kheapMax + (kheapMax - kheapBase) + 4096 ≤ 256 ^ wordBytes := by decide
  below_limit : kheapMax - kheapBase + 2 ^ 31 ≤ 256 ^ wordBytes := by decide
  invl_outside : invlPtr < kheapBase ∨ kheapMax < invlPtr := by decide

def x86 : Layout where
  wordBytes := 4
  validSizeOfs := 4
  fileOfs := 8
  lineOfs := 12
  magicOfs := 16
  timeOfs := 20
  headBytes := 28
  invlPtr := 0xFFFFFFFF
  kheapBase := 0xC0400000
  kheapMax := 0xCF000000

def x86_64 : Layout where
  wordBytes := 8
  validSizeOfs := 8
  fileOfs := 16
  lineOfs := 24
  magicOfs := 32
  timeOfs := 40
  headBytes := 48
  invlPtr := 0x0FFFFFFFFFFFFFFF
  kheapBase := 0xFFFF800000000000
  kheapMax := 0xFFFF900000000000

/-- As x86, but tTime is aligned to eight bytes. -/
def armv7 : Layout where
  wordBytes := 4
  validSizeOfs := 4
  fileOfs := 8
  lineOfs := 12
  magicOfs := 16
  timeOfs := 24
  headBytes := 32
  invlPtr := 0xFFFFFFFF
  kheapBase := 0x80800000
  kheapMax := 0xC0000000

namespace Layout

variable (L : Layout)

def modulus : ℕ := 256 ^ L.wordBytes
def footBytes : ℕ := 2 * L.wordBytes
def minSize : ℕ := 8 * L.wordBytes

/-- The int constant (2<<30) overflows to the least int and is widened to a Uint. -/
def sizeLimit : ℕ := L.modulus - 2 ^ 31

def add (a b : ℕ) : ℕ := (a + b) % L.modulus
def sub (a b : ℕ) : ℕ := (a + (L.modulus - b % L.modulus)) % L.modulus

end Layout

def heapInitSize : ℕ := 0x8000
def magicFoot : ℕ := 0x544F4F46
def magicFree : ℕ := 0x45455246
def magicUsed : ℕ := 0x44455355
def uintMax : ℕ := 0xFFFFFFFF

structure Heap where
  mem : Memory
  mapped : ℕ → Bool
  heapStart : ℕ
  heapEnd : ℕ

namespace Heap

variable (s : Heap) (a k : ℕ)

def Accessible : Prop := ∀ i < k, s.mapped ((a + i) / 4096) = true

instance : Decidable (s.Accessible a k) :=
  inferInstanceAs (Decidable (∀ i < k, _ = true))

def read : Option ℕ :=
  if s.Accessible a k then some (load s.mem a k) else none

def write (v : ℕ) : Option Heap :=
  if s.Accessible a k then some { s with mem := store s.mem a k v } else none

/-- The kernel's memcpy copies upwards, and so acts byte by byte. -/
def memcpy (s : Heap) (dst src n : ℕ) : Option Heap :=
  if s.Accessible dst n ∧ s.Accessible src n then
    some { s with mem := copyForward s.mem dst src n }
  else none

def copyBackward (m : Memory) (dst src : ℕ) : ℕ → Memory
  | 0 => m
  | n + 1 => copyBackward (Function.update m (dst + n) (m (src + n))) dst src n

def memmove (s : Heap) (dst src n : ℕ) : Option Heap :=
  if n = 0 ∨ dst = src then some s
  else if src + n < dst ∨ dst + n < src ∨ dst < src then s.memcpy dst src n
  else if s.Accessible dst n ∧ s.Accessible src n then
    some { s with mem := copyBackward s.mem dst src n }
  else none

end Heap

structure Caller where
  file : ℕ
  line : ℕ
  time : ℕ

variable (L : Layout) (s : Heap)

def headSize (head : ℕ) : Option ℕ := s.read head L.wordBytes
def headMagic (head : ℕ) : Option ℕ := s.read (head + L.magicOfs) L.wordBytes
def footMagic (foot : ℕ) : Option ℕ := s.read foot L.wordBytes
def footHead (foot : ℕ) : Option ℕ := s.read (foot + L.wordBytes) L.wordBytes

section

variable (head v : ℕ)

def setSize : Option Heap := s.write head L.wordBytes v
def setValidSize : Option Heap := s.write (head + L.validSizeOfs) 4 v
def setFile : Option Heap := s.write (head + L.fileOfs) L.wordBytes v
def setLine : Option Heap := s.write (head + L.lineOfs) 4 v
def setMagic : Option Heap := s.write (head + L.magicOfs) L.wordBytes v
def setTime : Option Heap := s.write (head + L.timeOfs) 8 v

end

def setFootMagic (foot v : ℕ) : Option Heap := s.write foot L.wordBytes v
def setFootHead (foot v : ℕ) : Option Heap := s.write (foot + L.wordBytes) L.wordBytes v

def heapNextHead (head : ℕ) : Option ℕ := do
  let size ← headSize L s head
  pure (L.add head size)

def heapThisFoot (head : ℕ) : Option ℕ := do
  let size ← headSize L s head
  pure (L.sub (L.add head size) L.footBytes)

def heapPrevFoot (head : ℕ) : ℕ := L.sub head L.footBytes

/-- The first half of Heap_Merge: join a free block below. `foot->Head` is read again at
each use, as the C code does. -/
def mergeLeft (s : Heap) (head thisFoot : ℕ) : Option (Heap × ℕ) :=
  let foot := heapPrevFoot L head
  if s.heapStart < head then do
    let prev ← footHead L s foot
    let magic ← headMagic L s prev
    if magic = magicFree then do
      let prevSize ← headSize L s prev
      let size ← headSize L s head
      let s ← setSize L s prev (L.add prevSize size)
      let prev ← footHead L s foot
      let s ← setFootHead L s thisFoot prev
      let s ← setMagic L s head 0
      let s ← setSize L s head 0
      let newHead ← footHead L s foot
      let s ← setFootHead L s foot 0
      let s ← setFootMagic L s foot 0
      pure (s, newHead)
    else pure (s, head)
  else pure (s, head)

def mergeRight (s : Heap) (head thisFoot : ℕ) : Option (Heap × ℕ) := do
  let nexthead ← heapNextHead L s head
  if nexthead < s.heapEnd then do
    let magic ← headMagic L s nexthead
    if magic = magicFree then do
      let size ← headSize L s head
      let nextSize ← headSize L s nexthead
      let s ← setSize L s head (L.add size nextSize)
      let foot ← heapThisFoot L s head
      let s ← setFootHead L s foot head
      let s ← setFootHead L s thisFoot 0
      let s ← setFootMagic L s thisFoot 0
      let s ← setSize L s nexthead 0
      let s ← setMagic L s nexthead 0
      pure (s, head)
    else pure (s, head)
  else pure (s, head)

def heapMerge (s : Heap) (head : ℕ) : Option (Heap × ℕ) := do
  let thisFoot ← heapThisFoot L s head
  let next ← heapNextHead L s head
  if s.heapEnd < next then none
  else do
    let (s, head) ← mergeLeft L s head thisFoot
    mergeRight L s head thisFoot

/-- The walk of Heap_ValidateDump, to the head it stops at; a longer one repeats a head for ever. -/
def validateWalk (s : Heap) : ℕ → ℕ → Option ℕ
  | 0, _ => none
  | fuel + 1, head =>
    if head < s.heapEnd then do
      let foot ← heapThisFoot L s head
      let size ← headSize L s head
      let magic ← headMagic L s head
      let fmagic ← footMagic L s foot
      let fhead ← footHead L s foot
      if size = 0 then pure head
      else if size % L.minSize ≠ 0 then pure head
      else if magic ≠ magicFree ∧ magic ≠ magicUsed then pure head
      else if fmagic ≠ magicFoot then pure head
      else if head ≠ fhead then pure head
      else validateWalk s fuel (L.add foot L.footBytes)
    else pure head

/-- A walk that stops short of gHeapEnd ends in the panic of Heap_ValidateDump. -/
def heapValidate (s : Heap) : Option Unit := do
  let head ← validateWalk L s L.modulus s.heapStart
  if s.heapEnd ≤ head then pure () else none

/-- The loop of Heap_Extend; pages mapped before a refusal stay mapped. -/
def extendPages (ok : ℕ → Bool) (s : Heap) (i : ℕ) : ℕ → Heap × Bool
  | 0 => (s, true)
  | n + 1 =>
    if ok i then
      extendPages ok
        { s with mapped := Function.update s.mapped (L.add s.heapEnd (4096 * i) / 4096) true }
        (i + 1) n
    else (s, false)

/-- "Create Block" of Heap_Extend. -/
def createBlock (s : Heap) (head size : ℕ) : Option Heap := do
  let s ← setSize L s head size
  let s ← setMagic L s head magicFree
  let foot ← heapThisFoot L s head
  let s ← setFootHead L s foot head
  setFootMagic L s foot magicFoot

def heapExtend (s : Heap) (bytes : ℕ) (ok : ℕ → Bool) : Option (Heap × ℕ) :=
  if s.heapEnd = L.kheapMax then some (s, 0)
  else if bytes = 0 then some (s, 0)
  else
    let pages := L.add bytes 0xFFF / 4096
    let newEnd := L.add s.heapEnd (pages * 4096)
    if L.kheapMax < newEnd then some (s, 0)
    else match extendPages L ok s 0 pages with
      | (s, false) => do
        heapValidate L s
        pure (s, 0)
      | (s, true) => do
        let head := s.heapEnd
        let s ← createBlock L { s with heapEnd := newEnd } head (pages * 4096)
        heapMerge L s head

def heapInstall (s : Heap) (ok : ℕ → Bool) : Option Heap := do
  let (s, _) ← heapExtend L { s with heapStart := L.kheapBase, heapEnd := L.kheapBase }
    heapInitSize ok
  pure s

/-- MIN_SIZE is a power of two, so the mask rounds down to a multiple of it. -/
def heapIntGetBlockSize (allocSize : ℕ) : ℕ :=
  let bytes := (allocSize + L.headBytes + L.footBytes + L.minSize - 1) % L.modulus
  bytes / L.minSize * L.minSize

inductive Found where
  | corrupt
  | perfect (head : ℕ)
  | best (head : Option ℕ)
  deriving DecidableEq

def findBlock (bytes : ℕ) : ℕ → ℕ → Option ℕ → ℕ → Option Found
  | 0, _, _, _ => none
  | fuel + 1, head, best, bestSize =>
    if head < s.heapEnd then do
      let size ← headSize L s head
      let magic ← headMagic L s head
      let next := L.add head size
      if size % L.minSize ≠ 0 then pure .corrupt
      else if size < L.minSize then pure .corrupt
      else if L.sizeLimit < size then pure .corrupt
      else if magic = magicUsed then findBlock bytes fuel next best bestSize
      else if magic ≠ magicFree then pure .corrupt
      else if size < bytes then findBlock bytes fuel next best bestSize
      else if size = bytes then pure (.perfect head)
      else if size < bestSize then findBlock bytes fuel next (some head) size
      else findBlock bytes fuel next best bestSize
    else pure (.best best)

def markUsed (c : Caller) (head n : ℕ) : Option Heap := do
  let s ← setMagic L s head magicUsed
  let s ← setFile L s head c.file
  let s ← setLine L s head c.line
  let s ← setValidSize L s head n
  setTime L s head c.time

/-- "Allocate beginning of old block" and "Create a new foot on old block". -/
def takeFront (c : Caller) (best bytes n : ℕ) : Option Heap := do
  let s ← setSize L s best bytes
  let s ← setValidSize L s best n
  let s ← setMagic L s best magicUsed
  let s ← setFile L s best c.file
  let s ← setLine L s best c.line
  let s ← setTime L s best c.time
  let newfoot ← heapThisFoot L s best
  let s ← setFootHead L s newfoot best
  setFootMagic L s newfoot magicFoot

/-- "Create a new header after resized old" and "Update footer". -/
def leaveRest (newhead newsize : ℕ) : Option Heap := do
  let s ← setSize L s newhead newsize
  let s ← setMagic L s newhead magicFree
  let s ← setValidSize L s newhead 0
  let s ← setFile L s newhead 0
  let s ← setLine L s newhead 0
  let foot ← heapThisFoot L s newhead
  setFootHead L s foot newhead

def splitBlock (c : Caller) (best bytes n : ℕ) : Option Heap := do
  let size ← headSize L s best
  let s ← takeFront L s c best bytes n
  let newhead ← heapNextHead L s best
  leaveRest L s newhead (L.sub size bytes)

/-- Heap_Allocate; the null pointer is zero and `head->Data` is the byte after the head. -/
def heapAllocate (c : Caller) (n : ℕ) (ok : ℕ → Bool) : Option (Heap × ℕ) :=
  if n = 0 then some (s, 0)
  else do
    heapValidate L s
    let bytes := heapIntGetBlockSize L n
    let found ← findBlock L s bytes L.modulus s.heapStart none uintMax
    match found with
    | .corrupt => do
      heapValidate L s
      pure (s, 0)
    | .perfect head => do
      let s ← markUsed L s c head n
      pure (s, head + L.headBytes)
    | .best (some best) => do
      let s ← splitBlock L s c best bytes n
      pure (s, best + L.headBytes)
    | .best none => do
      let (s, best) ← heapExtend L s bytes ok
      if best = 0 then pure (s, 0)
      else do
        let size ← headSize L s best
        if size = bytes then do
          let s ← markUsed L s c best n
          pure (s, best + L.headBytes)
        else do
          let s ← splitBlock L s c best bytes n
          pure (s, best + L.headBytes)

/-- "Mark as free" of Heap_Deallocate. -/
def markFree (c : Caller) (head : ℕ) : Option Heap := do
  let s ← setMagic L s head magicFree
  let s ← setFile L s head c.file
  let s ← setLine L s head c.line
  setValidSize L s head 0

/-- Heap_Deallocate; every refusal only logs and leaves the heap as it is. -/
def heapDeallocate (c : Caller) (ptr : ℕ) : Option Heap :=
  if ptr = L.invlPtr then some s
  else if ptr = 0 then some s
  else if ptr % L.wordBytes ≠ 0 then some s
  else if ptr < s.heapStart ∨ s.heapEnd < ptr then some s
  else do
    let head := L.sub ptr L.headBytes
    let magic ← headMagic L s head
    if magic = magicFree then pure s
    else if magic ≠ magicUsed then pure s
    else do
      let foot ← heapThisFoot L s head
      let fhead ← footHead L s foot
      let fmagic ← footMagic L s foot
      if fhead ≠ head then pure s
      else if fmagic ≠ magicFoot then pure s
      else do
        let s ← markFree L s c head
        let (s, _) ← heapMerge L s head
        pure s

def heapIsHeapAddr (ptr : ℕ) : Option Bool :=
  if ptr < s.heapStart then some false
  else if s.heapEnd < ptr then some false
  else if ptr % L.wordBytes ≠ 0 then some false
  else do
    let magic ← headMagic L s (L.sub ptr L.headBytes)
    pure (magic = magicUsed ∨ magic = magicFree)

/-- `nextHead->Magic == MAGIC_FREE && nextHead->Size+head->Size >= newSize`. -/
def roomWith (head other newSize : ℕ) : Option Bool := do
  let magic ← headMagic L s other
  if magic = magicFree then do
    let otherSize ← headSize L s other
    let size ← headSize L s head
    pure (newSize ≤ L.add otherSize size)
  else pure false

/-- "Update old with new information" and "Create new footer". -/
def growFront (c : Caller) (head newSize n : ℕ) : Option Heap := do
  let s ← setSize L s head newSize
  let s ← setFile L s head c.file
  let s ← setLine L s head c.line
  let s ← setValidSize L s head n
  let foot ← heapThisFoot L s head
  let s ← setFootHead L s foot head
  setFootMagic L s foot magicFoot

/-- "Create new header" and "Update old footer". -/
def growRest (next size : ℕ) : Option Heap := do
  let s ← setSize L s next size
  let s ← setMagic L s next magicFree
  let foot ← heapThisFoot L s next
  setFootHead L s foot next

section

variable (c : Caller) (head : ℕ)

/-- "Exact Fit" of the upward extension. -/
def growWhole (next foot newSize n : ℕ) :
    Option Heap := do
  let s ← setSize L s head newSize
  let s ← setValidSize L s head n
  let s ← setFile L s head c.file
  let s ← setLine L s head c.line
  let s ← setFootHead L s foot head
  let s ← setMagic L s next 0
  setSize L s next 0

/-- "Extend into next block" of Heap_Reallocate. -/
def growUp (next newSize n : ℕ) : Option Heap := do
  let nextSize ← headSize L s next
  let headSz ← headSize L s head
  let foot ← heapThisFoot L s next
  if L.add nextSize headSz = newSize then growWhole L s c head next foot newSize n
  else do
    let s ← growFront L s c head newSize n
    let next ← heapNextHead L s head
    growRest L s next (L.sub (L.add nextSize headSz) newSize)

def growDownHeads (prev newSize n : ℕ) :
    Option (Heap × ℕ) := do
  let s ← setMagic L s prev magicUsed
  let s ← setSize L s prev newSize
  let s ← setFile L s prev c.file
  let s ← setLine L s prev c.line
  let s ← setValidSize L s prev n
  let foot ← heapThisFoot L s prev
  let s ← setFootHead L s foot prev
  let size ← headSize L s head
  let s ← setSize L s head 0
  let s ← setMagic L s head 0
  pure (s, L.sub (L.sub size L.footBytes) L.headBytes)

/-- "Extend downwards" of Heap_Reallocate. The inexact case only logs a warning and then
runs the code of the exact one. -/
def growDown (prev ptr newSize n : ℕ) : Option Heap := do
  let (s, oldDataSize) ← growDownHeads L s c head prev newSize n
  s.memmove (prev + L.headBytes) ptr oldDataSize

/-- Heap_Reallocate writes the caller into the head of its new block once more. -/
def relabel (n : ℕ) : Option Heap := do
  let s ← setFile L s head c.file
  let s ← setLine L s head c.line
  setValidSize L s head n

end

/-- The tail of Heap_Reallocate: take a new block, copy, free the old one. -/
def reallocMove (c own : Caller) (head ptr n : ℕ) (ok : ℕ → Bool) :
    Option (Heap × ℕ) := do
  let (s, q) ← heapAllocate L s c n ok
  if q = 0 then pure (s, 0)
  else do
    let newHead := L.sub q L.headBytes
    let s ← relabel L s c newHead n
    let size ← headSize L s head
    let newSize ← headSize L s newHead
    if size < newSize ∧ ptr = head + L.headBytes then do
      let s ← s.memcpy (newHead + L.headBytes) ptr
        (L.sub (L.sub size L.footBytes) L.headBytes)
      let s ← heapDeallocate L s own ptr
      heapValidate L s
      pure (s, newHead + L.headBytes)
    else none

/-- Heap_Reallocate; `own` is the call site of its own free(). -/
def heapReallocate (c own : Caller) (ptr n : ℕ) (ok : ℕ → Bool) :
    Option (Heap × ℕ) :=
  let head := L.sub ptr L.headBytes
  let newSize := heapIntGetBlockSize L n
  if ptr = 0 then heapAllocate L s c n ok
  else do
    let isHeap ← heapIsHeapAddr L s ptr
    if isHeap = false then pure (s, 0)
    else do
      let size ← headSize L s head
      if newSize ≤ size then pure (s, ptr)
      else do
        heapValidate L s
        let next ← heapNextHead L s head
        let up ← roomWith L s head next newSize
        if up then do
          let s ← growUp L s c head next newSize n
          pure (s, ptr)
        else do
          let prev ← footHead L s (heapPrevFoot L head)
          let down ← roomWith L s head prev newSize
          if down then do
            let s ← growDown L s c head prev ptr newSize n
            pure (s, prev + L.headBytes)
          else reallocMove L s c own head ptr n ok

end KernelHeapModel
