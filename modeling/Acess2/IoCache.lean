import Acess2.BufferCopies
import Acess2.SortedLists

/-! The cache of disk sectors (`drv/iocache.c`).
Its entries are whole pages, in the order of their offsets on the disk; the bits of
`PresentSectors` say which sectors of a page have been stored. A new page starts with none, not
even the sector it was made for. -/
namespace IoCache

open BufferCopies List SortedLists

def pageSize : ℕ := 0x1000

inductive Mode where
  | writeback
  | delayWrite
  | virtual
  deriving DecidableEq

abbrev Data := ℕ → UInt8

/-- `tIOCache_PageInfo`; `frame` is what stands in the frame at `BasePhys`. -/
structure PageInfo where
  lastAccess : ℤ
  baseOffset : ℕ
  presentSectors : BitVec 32
  dirtySectors : BitVec 32
  frame : Data

/-- `tIOCache`; the list from `Pages` -/
structure Cache where
  sectorSize : ℕ
  mode : Mode
  cacheSize : ℕ
  cacheUsed : ℕ
  pages : List PageInfo

def iocacheCreate (sectorSize cacheSize : ℤ) : Option Cache :=
  if cacheSize < 1 then none
  else if sectorSize < 512 then none
  else if sectorSize > pageSize then none
  else some ⟨sectorSize.toNat, .writeback, cacheSize.toNat, 0, []⟩

section

variable (c : Cache) (sector : ℕ)

def Cache.address : ℕ := sector * c.sectorSize % 2 ^ 64

def Cache.base : ℕ := c.address sector / pageSize * pageSize

def Cache.offset : ℕ := c.address sector % pageSize

def Cache.mask : BitVec 32 :=
  1#32 <<< (c.offset sector / c.sectorSize)

def Cache.before : List PageInfo :=
  below PageInfo.baseOffset (c.base sector) c.pages

def Cache.rest : List PageInfo :=
  onward PageInfo.baseOffset (c.base sector) c.pages

/-- `IOCache_int_GetPage`: the page of a sector and the pages behind it -/
def iocacheIntGetPage : Option (PageInfo × List PageInfo) :=
  match c.rest sector with
  | [] => none
  | page :: after => if page.baseOffset > c.base sector then none else some (page, after)

def Cache.put (page : PageInfo) (after : List PageInfo) : Cache :=
  { c with pages := c.before sector ++ page :: after }

/-- The sector does not reach over the end of its page, where the frame is not mapped. -/
def Cache.Inside : Prop := c.offset sector + c.sectorSize ≤ pageSize

instance : Decidable (c.Inside sector) :=
  inferInstanceAs (Decidable (_ ≤ _))

end

def Cache.store (c : Cache) (page : PageInfo) (sector : ℕ) (buffer : Data) : PageInfo :=
  { page with frame := memcpy page.frame (c.offset sector) c.sectorSize buffer }

/-- `IOCache_Read`: what it returns, and the buffer behind it -/
def iocacheRead (c : Cache) (now : ℤ) (sector : ℕ) (buffer : Data) : Option (ℤ × Data × Cache) :=
  if c.cacheSize = 0 then some (-1, buffer, c)
  else
    match iocacheIntGetPage c sector with
    | none => some (0, buffer, c)
    | some (page, after) =>
      if page.presentSectors &&& c.mask sector ≠ 0 then
        if c.Inside sector then
          some (1, memcpy buffer 0 c.sectorSize (behind page.frame (c.offset sector)),
            c.put sector { page with lastAccess := now } after)
        else none
      else some (0, buffer, c)

/-- The search of `IOCache_Add` for the page that was accessed first, from the `i`th page on -/
def oldestFrom (oldest : ℕ) (lastAccess : ℤ) (i : ℕ) : List PageInfo → ℕ
  | [] => oldest
  | ent :: rest =>
    if ent.lastAccess < lastAccess then oldestFrom i ent.lastAccess (i + 1) rest
    else oldestFrom oldest lastAccess (i + 1) rest

variable {D : Type} (write : D → ℕ → Data → D)

section

variable (c : Cache) (d : D)

/-- All sectors of a page are given to the `Write` callback. -/
def writePage (page : PageInfo) : D :=
  (List.range (pageSize / c.sectorSize)).foldl
    (fun d i =>
      write d (page.baseOffset / c.sectorSize + i) (behind page.frame (i * c.sectorSize))) d

def flushPage (page : PageInfo) : D :=
  if page.dirtySectors ≠ 0 ∧ c.mode ≠ .virtual then writePage write c d page else d

/-- The last case of `IOCache_Add`: the oldest page is used again. `prev` is the last page of the
list by then; if it is the one taken off, it gets linked to itself. -/
def reusePage (now : ℤ) (sector : ℕ) (buffer : Data) : Option (ℤ × Cache × D) :=
  match c.pages with
  | [] => none
  | first :: rest =>
    let oldest := oldestFrom 0 first.lastAccess 1 rest
    let page := (first :: rest).getD oldest first
    let d := flushPage write c d page
    let page := c.store { page with
      lastAccess := now
      baseOffset := c.base sector
      presentSectors := 0
      dirtySectors := 0 } sector buffer
    let pages := (first :: rest).eraseIdx oldest
    if c.Inside sector then
      some (1, { c with pages := if oldest = rest.length then pages else pages ++ [page] }, d)
    else none

/-- `IOCache_Add`; `fresh` is what stands in a frame from `MM_AllocPhys`. -/
def iocacheAdd (now : ℤ) (fresh : Data) (sector : ℕ) (buffer : Data) :
    Option (ℤ × Cache × D) :=
  if c.cacheSize = 0 then some (-1, c, d)
  else
    match iocacheIntGetPage c sector with
    | some (page, after) =>
      if page.presentSectors &&& c.mask sector = 0 then
        let page := { c.store page sector buffer with
          presentSectors := page.presentSectors ||| c.mask sector }
        if c.Inside sector then some (1, c.put sector page after, d) else none
      else some (0, c, d)
    | none =>
      if c.cacheUsed ≤ c.cacheSize then
        let page := c.store ⟨now, c.base sector, 0, 0, fresh⟩ sector buffer
        if c.Inside sector then some (1, c.put sector page (c.rest sector), d) else none
      else reusePage write c d now sector buffer

def iocacheWrite (now : ℤ) (sector : ℕ) (buffer : Data) :
    Option (ℤ × Cache × D) :=
  if c.cacheSize = 0 then some (-1, c, d)
  else
    match iocacheIntGetPage c sector with
    | none => some (0, c, d)
    | some (page, after) =>
      if page.presentSectors &&& c.mask sector ≠ 0 then
        let page := { c.store page sector buffer with lastAccess := now }
        if c.Inside sector then
          if c.mode = .writeback then
            some (1, c.put sector page after, write d sector buffer)
          else
            let page := { page with dirtySectors := page.dirtySectors ||| c.mask sector }
            some (1, c.put sector page after, d)
        else none
      else some (0, c, d)

def iocacheFlush : D :=
  if c.mode = .virtual then d
  else if c.cacheSize = 0 then d
  else c.pages.foldl (flushPage write c) d

end

variable {c : Cache} {sector : ℕ} {page page' : PageInfo} {after : List PageInfo}

section

variable (c) (sector)

def OnList : Prop := ∃ page ∈ c.pages, page.baseOffset = c.base sector

def Present : Prop :=
  ∃ page ∈ c.pages, page.baseOffset = c.base sector ∧ page.presentSectors &&& c.mask sector ≠ 0

instance : Decidable (OnList c sector) :=
  inferInstanceAs (Decidable (∃ page ∈ c.pages, _))

instance : Decidable (Present c sector) :=
  inferInstanceAs (Decidable (∃ page ∈ c.pages, _))

end

@[simp] theorem put_sectorSize : (c.put sector page after).sectorSize = c.sectorSize := rfl
@[simp] theorem put_base (s : ℕ) : (c.put sector page after).base s = c.base s := rfl
@[simp] theorem put_offset (s : ℕ) : (c.put sector page after).offset s = c.offset s := rfl
@[simp] theorem put_mask (s : ℕ) : (c.put sector page after).mask s = c.mask s := rfl
@[simp] theorem put_inside (s : ℕ) : (c.put sector page after).Inside s ↔ c.Inside s := Iff.rfl

theorem pages_eq (c : Cache) (sector : ℕ) : c.pages = c.before sector ++ c.rest sector :=
  (below_append_onward _ _ _).symm

theorem getPage_found (h : iocacheIntGetPage c sector = some (page, after)) :
    c.pages = c.before sector ++ page :: after ∧ page.baseOffset = c.base sector := by
  unfold iocacheIntGetPage at h
  split at h
  case h_1 => cases h
  case h_2 first rest hrest =>
    split at h
    case isTrue => cases h
    case isFalse hle =>
      cases h
      have hge : c.base sector ≤ page.baseOffset := le_onward hrest
      exact ⟨by rw [← hrest]; exact pages_eq c sector, le_antisymm (not_lt.mp hle) hge⟩

theorem getPage_missing (hsorted : Sorted PageInfo.baseOffset c.pages)
    (h : iocacheIntGetPage c sector = none) :
    ¬ OnList c sector ∧ ∀ p ∈ c.rest sector, c.base sector < p.baseOffset := by
  rcases hsorted.search (k := c.base sector) with ⟨first, rest, hrest, hkey⟩ | ⟨hne, hgt⟩
  · have hrest' : c.rest sector = first :: rest := hrest
    have hle : ¬ first.baseOffset > c.base sector := not_lt.mpr hkey.le
    simp [iocacheIntGetPage, hrest', hle] at h
  · exact ⟨fun ⟨p, hp, hbase⟩ => hne p hp hbase, hgt⟩

theorem getPage_put (hbase : page.baseOffset = c.base sector) :
    iocacheIntGetPage (c.put sector page after) sector = some (page, after) ∧
      (c.put sector page after).before sector = c.before sector := by
  obtain ⟨hbefore, hrest⟩ : (c.put sector page after).before sector = c.before sector ∧
      (c.put sector page after).rest sector = page :: after :=
    search_cut (fun y hy => below_lt hy) hbase.ge
  refine ⟨?_, hbefore⟩
  simp [iocacheIntGetPage, hrest, hbase]

theorem iocacheRead_put (hsize : 0 < c.cacheSize) (hbase : page.baseOffset = c.base sector)
    (now : ℤ) (buffer : Data) :
    iocacheRead (c.put sector page after) now sector buffer =
      if page.presentSectors &&& c.mask sector ≠ 0 then
        if c.Inside sector then
          some (1, memcpy buffer 0 c.sectorSize (behind page.frame (c.offset sector)),
            (c.put sector page after).put sector { page with lastAccess := now } after)
        else none
      else some (0, buffer, c.put sector page after) := by
  have hne : (c.put sector page after).cacheSize ≠ 0 := hsize.ne'
  simp only [iocacheRead, hne, (getPage_put hbase).1, ↓reduceIte, put_mask, put_inside,
    put_sectorSize, put_offset]

theorem mem_of_found (h : iocacheIntGetPage c sector = some (page, after)) : page ∈ c.pages := by
  simp [(getPage_found h).1]

theorem onList_of_found (h : iocacheIntGetPage c sector = some (page, after)) : OnList c sector :=
  ⟨page, mem_of_found h, (getPage_found h).2⟩

theorem present_of_found (hsorted : Sorted PageInfo.baseOffset c.pages)
    (h : iocacheIntGetPage c sector = some (page, after)) :
    Present c sector ↔ page.presentSectors &&& c.mask sector ≠ 0 := by
  have hbase := (getPage_found h).2
  have hmem := mem_of_found h
  constructor
  · rintro ⟨p, hp, hpbase, hbit⟩
    rwa [hsorted.unique hp hmem (hpbase.trans hbase.symm)] at hbit
  · intro hbit
    exact ⟨page, hmem, hbase, hbit⟩

/-- A cache from `IOCache_Create`, after any calls -/
structure Ready (c : Cache) : Prop where
  size : 0 < c.cacheSize
  used : c.cacheUsed = 0
  mode : c.mode = .writeback
  sorted : Sorted PageInfo.baseOffset c.pages
  clean : ∀ page ∈ c.pages, page.dirtySectors = 0

theorem ready_created {sectorSize cacheSize : ℤ} (h : iocacheCreate sectorSize cacheSize = some c) :
    Ready c ∧ c.pages = [] ∧ (c.sectorSize : ℤ) = sectorSize ∧ (c.cacheSize : ℤ) = cacheSize ∧
      512 ≤ c.sectorSize ∧ c.sectorSize ≤ pageSize := by
  unfold iocacheCreate at h
  split at h
  case isTrue => cases h
  case isFalse hcache =>
    split at h
    case isTrue => cases h
    case isFalse hsmall =>
      split at h
      case isTrue => cases h
      case isFalse hlarge =>
        cases h
        refine ⟨⟨?_, rfl, rfl, List.Pairwise.nil, fun page hpage => by cases hpage⟩, rfl, ?_⟩
        · exact Int.lt_toNat.mpr (by omega)
        · exact ⟨by simp; omega, by simp; omega, by simp; omega, by simp; omega⟩

theorem others_found (h : Ready c) (hfound : iocacheIntGetPage c sector = some (page, after)) :
    ∀ p ∈ c.before sector ++ after, p ∈ c.pages ∧ p.baseOffset ≠ c.base sector := by
  obtain ⟨hpages, hbase⟩ := getPage_found hfound
  have hsorted := h.sorted
  rw [hpages] at hsorted
  obtain ⟨-, hrest, -⟩ := hsorted.cut
  intro p hp
  rw [hpages]
  rcases mem_append.mp hp with hp | hp
  · exact ⟨mem_append_left _ hp, (below_lt hp).ne⟩
  · have hlt := (pairwise_cons.mp hrest).1 p hp
    exact ⟨by simp [hp], fun heq => hlt.ne (hbase.trans heq.symm)⟩

theorem others_missing (h : Ready c) (hmissing : iocacheIntGetPage c sector = none) :
    ∀ p ∈ c.before sector ++ c.rest sector, p ∈ c.pages ∧ p.baseOffset ≠ c.base sector := by
  intro p hp
  rw [← pages_eq c sector] at hp
  exact ⟨hp, fun heq => (getPage_missing h.sorted hmissing).1 ⟨p, hp, heq⟩⟩

theorem Ready.put (h : Ready c) (hfound : iocacheIntGetPage c sector = some (page, after))
    (hbase : page'.baseOffset = page.baseOffset) (hdirty : page'.dirtySectors = page.dirtySectors) :
    Ready (c.put sector page' after) := by
  have hsorted := h.sorted
  rw [(getPage_found hfound).1] at hsorted
  refine ⟨h.size, h.used, h.mode, hsorted.replace hbase, ?_⟩
  obtain ⟨hbefore, hafter⟩ := forall_mem_append.mp fun p hp =>
    h.clean p (others_found h hfound p hp).1
  have hclean := hdirty.trans (h.clean page (mem_of_found hfound))
  exact forall_mem_append.mpr ⟨hbefore, forall_mem_cons.mpr ⟨hclean, hafter⟩⟩

theorem Ready.insert (h : Ready c) (hmissing : iocacheIntGetPage c sector = none)
    (hbase : page.baseOffset = c.base sector) (hdirty : page.dirtySectors = 0) :
    Ready (c.put sector page (c.rest sector)) := by
  have hsorted := h.sorted
  rw [pages_eq c sector] at hsorted
  have hafter := (getPage_missing h.sorted hmissing).2
  refine ⟨h.size, h.used, h.mode, hsorted.insert (fun p hp => ?_) (fun p hp => ?_), ?_⟩
  · exact hbase ▸ below_lt hp
  · exact hbase ▸ hafter p hp
  · obtain ⟨hbefore, hrest⟩ :=
      forall_mem_append.mp fun p hp => h.clean p (others_missing h hmissing p hp).1
    exact forall_mem_append.mpr ⟨hbefore, forall_mem_cons.mpr ⟨hdirty, hrest⟩⟩

theorem iocacheRead_cases (h : Ready c) (now : ℤ) (sector : ℕ) (buffer : Data) :
    (¬ Present c sector ∧ iocacheRead c now sector buffer = some (0, buffer, c)) ∨
    (Present c sector ∧ ∃ page after, iocacheIntGetPage c sector = some (page, after) ∧
      iocacheRead c now sector buffer = if c.Inside sector then
          some (1, memcpy buffer 0 c.sectorSize (behind page.frame (c.offset sector)),
            c.put sector { page with lastAccess := now } after)
        else none) := by
  have hsize : c.cacheSize ≠ 0 := h.size.ne'
  cases hfound : iocacheIntGetPage c sector with
  | none =>
    left
    obtain ⟨hoff, -⟩ := getPage_missing h.sorted hfound
    refine ⟨fun ⟨p, hp, hbase, _⟩ => hoff ⟨p, hp, hbase⟩, ?_⟩
    simp [iocacheRead, hsize, hfound]
  | some found =>
    obtain ⟨page, after⟩ := found
    have hpresent := present_of_found h.sorted hfound
    by_cases hbit : page.presentSectors &&& c.mask sector ≠ 0
    · right
      refine ⟨hpresent.mpr hbit, page, after, rfl, ?_⟩
      simp only [iocacheRead, hsize, hfound, hbit, ↓reduceIte, not_false_eq_true, ne_eq]
    · left
      refine ⟨fun hp => hbit (hpresent.mp hp), ?_⟩
      simp only [iocacheRead, hsize, hfound, hbit, ↓reduceIte]

variable {write}

theorem iocacheAdd_cases (h : Ready c) (d : D) (now : ℤ) (fresh : Data) (sector : ℕ)
    (buffer : Data) :
    (Present c sector ∧ iocacheAdd write c d now fresh sector buffer = some (0, c, d)) ∨
    (¬ Present c sector ∧ ∃ page after, iocacheIntGetPage c sector = some (page, after) ∧
      iocacheAdd write c d now fresh sector buffer = if c.Inside sector then
          some (1, c.put sector { c.store page sector buffer with
            presentSectors := page.presentSectors ||| c.mask sector } after, d)
        else none) ∨
    (iocacheIntGetPage c sector = none ∧
      iocacheAdd write c d now fresh sector buffer = if c.Inside sector then
          some (1, c.put sector (c.store ⟨now, c.base sector, 0, 0, fresh⟩ sector buffer)
            (c.rest sector), d)
        else none) := by
  have hsize : c.cacheSize ≠ 0 := h.size.ne'
  have hused : c.cacheUsed ≤ c.cacheSize := by
    rw [h.used]
    exact Nat.zero_le _
  cases hfound : iocacheIntGetPage c sector with
  | none =>
    right; right
    refine ⟨rfl, ?_⟩
    simp only [iocacheAdd, hsize, hfound, hused, ↓reduceIte]
  | some found =>
    obtain ⟨page, after⟩ := found
    have hpresent := present_of_found h.sorted hfound
    by_cases hbit : page.presentSectors &&& c.mask sector = 0
    · right; left
      refine ⟨fun hp => hpresent.mp hp hbit, page, after, rfl, ?_⟩
      simp only [iocacheAdd, hsize, hfound, hbit, ↓reduceIte]
    · left
      refine ⟨hpresent.mpr hbit, ?_⟩
      simp only [iocacheAdd, hsize, hfound, hbit, ↓reduceIte]

theorem iocacheWrite_cases (h : Ready c) (d : D) (now : ℤ) (sector : ℕ) (buffer : Data) :
    (¬ Present c sector ∧ iocacheWrite write c d now sector buffer = some (0, c, d)) ∨
    (Present c sector ∧ ∃ page after, iocacheIntGetPage c sector = some (page, after) ∧
      iocacheWrite write c d now sector buffer = if c.Inside sector then
          some (1, c.put sector { c.store page sector buffer with lastAccess := now } after,
            write d sector buffer)
        else none) := by
  have hsize : c.cacheSize ≠ 0 := h.size.ne'
  cases hfound : iocacheIntGetPage c sector with
  | none =>
    left
    obtain ⟨hoff, -⟩ := getPage_missing h.sorted hfound
    refine ⟨fun ⟨p, hp, hbase, _⟩ => hoff ⟨p, hp, hbase⟩, ?_⟩
    simp [iocacheWrite, hsize, hfound]
  | some found =>
    obtain ⟨page, after⟩ := found
    have hpresent := present_of_found h.sorted hfound
    by_cases hbit : page.presentSectors &&& c.mask sector ≠ 0
    · right
      refine ⟨hpresent.mpr hbit, page, after, rfl, ?_⟩
      simp only [iocacheWrite, hsize, hfound, hbit, h.mode, ↓reduceIte, not_false_eq_true, ne_eq]
    · left
      refine ⟨fun hp => hbit (hpresent.mp hp), ?_⟩
      simp only [iocacheWrite, hsize, hfound, hbit, ↓reduceIte]

theorem iocacheFlush_ready (h : Ready c) (d : D) : iocacheFlush write c d = d := by
  have hfold : ∀ pages : List PageInfo, (∀ page ∈ pages, page.dirtySectors = 0) →
      pages.foldl (flushPage write c) d = d := by
    intro pages hclean
    induction pages with
    | nil => rfl
    | cons page pages ih =>
      have hpage : flushPage write c d page = d := by
        simp [flushPage, hclean page (mem_cons_self ..)]
      rw [foldl_cons, hpage]
      exact ih fun p hp => hclean p (mem_cons_of_mem _ hp)
  unfold iocacheFlush
  split_ifs
  · rfl
  · rfl
  · exact hfold c.pages h.clean

end IoCache
