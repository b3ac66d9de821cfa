import Mathlib.Data.List.Pairwise
import Mathlib.Data.List.TakeWhile
import Acess2.GuardedRuns
import Acess2.ThreadsModel

/-! Shared mappings of a file (`vfs/mmap.c`).
A node keeps the frames of its mapped pages in a sorted list of blocks of sixteen. Page numbers
are `unsigned int`, and so is the product with the page size that says where in the file a page
is read from. -/
namespace VfsMMap

open Function GuardedRuns List Option Nat
open ThreadsModel (wrap32)

def pageSize : ℕ := 0x1000
def pagesPerBlock : ℕ := 16

/-- `tVFS_MMapPageBlock`; a physical address of 0 is a page that has not been read. -/
structure Block where
  baseOffset : ℕ
  physAddrs : ℕ → ℕ

/-- The flags of a mapped page (`MM_PFLAG_*`) -/
structure PageFlags where
  ro : Bool
  exec : Bool
  cow : Bool
  deriving DecidableEq

abbrev VPage := ℕ × ℕ

structure Maps where
  /-- `MM_GetPhysAddr` -/
  phys : VPage → ℕ
  flags : VPage → PageFlags
  refs : ℕ → ℕ
  /-- `ReferenceCount` of the node -/
  nodeRefs : ℤ
  /-- the offset in the file that a frame was filled from -/
  filled : ℕ → Option ℕ
  /-- the pages of the file that were asked for, and what the destination of each then mapped -/
  served : List (ℕ × ℕ)

/-- The node's `MMapInfo` among the mappings -/
structure State where
  blocks : List Block
  maps : Maps

/-- `VFS_MMap` of a file with `MMAP_MAP_FIXED`; page `j` of it gets frame `frames j` if one is
allocated. -/
structure Call where
  process : ℕ
  destHint : ℕ
  length : BitVec 64
  offset : BitVec 64
  write : Bool
  exec : Bool
  isPrivate : Bool
  frames : ℕ → ℕ

def Call.npages (c : Call) : ℕ :=
  (c.offset.toNat % pageSize + c.length.toNat + (pageSize - 1)) % 2 ^ 64 / pageSize % 2 ^ 32

def Call.pagenum (c : Call) (j : ℕ) : ℕ := (c.offset.toNat / pageSize + j) % 2 ^ 32

def Call.dest (c : Call) (j : ℕ) : VPage := (c.process, c.destHint / pageSize + j)

def Call.filePage (c : Call) (j : ℕ) : ℕ := c.offset.toNat / pageSize + j

def Maps.ref (m : Maps) (frame : ℕ) : Maps :=
  { m with refs := update m.refs frame (m.refs frame + 1) }

def Maps.setFlags (m : Maps) (d : VPage) (flags : PageFlags) : Maps :=
  { m with flags := update m.flags d flags }

def vfsMMapMapPage (c : Call) (j : ℕ) (pb : Block) (m : Maps) : Block × Maps :=
  let dest := c.dest j
  let idx := c.pagenum j - pb.baseOffset
  let (pb, m) :=
    if pb.physAddrs idx ≠ 0 then
      (pb, { m with phys := update m.phys dest (pb.physAddrs idx) }.ref (pb.physAddrs idx))
    else
      -- the node's own `MMap`, or `MM_Allocate` and its `Read`
      let m := { m with
        phys := update m.phys dest (c.frames j)
        refs := update m.refs (c.frames j) 1
        filled := update m.filled (c.frames j)
          (some (c.pagenum j * pageSize % 2 ^ 32)) }
      ({ pb with physAddrs := update pb.physAddrs idx (m.phys dest) }, m.ref (m.phys dest))
  let m := { m with nodeRefs := wrap32 (m.nodeRefs + 1) }
  (pb, m.setFlags dest { m.flags dest with ro := !c.write, exec := c.exec })

def flagUpdate (c : Call) (j : ℕ) (m : Maps) : Maps :=
  let flags := m.flags (c.dest j)
  if flags.ro ∧ c.write then m.setFlags (c.dest j) { flags with ro := false } else m

/-- The place of the loop in the block list: those before `pb`, and those after -/
structure Walk where
  passed : List Block
  pb : Block
  rest : List Block

def Walk.blocks (w : Walk) : List Block := w.passed ++ w.pb :: w.rest

def Walk.rollOn (w : Walk) (pagenum : ℕ) : Option Walk :=
  if pagenum = w.pb.baseOffset + pagesPerBlock then
    match w.rest with
    | [] => some ⟨w.passed ++ [w.pb], ⟨pagenum, fun _ => 0⟩, []⟩
    | pb :: rest =>
      if pb.baseOffset = pagenum then some ⟨w.passed ++ [w.pb], pb, rest⟩
      -- ASSERTC
      else if pb.baseOffset % pagesPerBlock ≠ 0 then none
      else some ⟨w.passed ++ [w.pb], ⟨pagenum, fun _ => 0⟩, pb :: rest⟩
  else some w

def markPrivate (c : Call) (j : ℕ) (m : Maps) : Maps :=
  if c.isPrivate then m.setFlags (c.dest j) { m.flags (c.dest j) with cow := true } else m

def Maps.serve (m : Maps) (page : ℕ) (d : VPage) : Maps :=
  { m with served := m.served ++ [(page, m.phys d)] }

def mapRound (c : Call) (j : ℕ) (w : Walk) (m : Maps) : Option (Walk × Maps) :=
  let pagenum := c.pagenum j
  -- two ASSERTCs
  if pagenum < w.pb.baseOffset ∨ pagesPerBlock ≤ pagenum - w.pb.baseOffset then none
  else
    let (pb, m) := if m.phys (c.dest j) = 0 then vfsMMapMapPage c j w.pb m
      else (w.pb, flagUpdate c j m)
    let m := (markPrivate c j m).serve (c.filePage j) (c.dest j)
    ({ w with pb := pb }.rollOn (c.pagenum (j + 1))).map fun w => (w, m)

def mapLoop (c : Call) : ℕ → ℕ → Walk → Maps → Option (Walk × Maps)
  | 0, _, w, m => some (w, m)
  | left + 1, j, w, m => do
    let (w, m) ← mapRound c j w m
    mapLoop c left (j + 1) w m

def endsBefore (pagenum : ℕ) (b : Block) : Bool := b.baseOffset + pagesPerBlock ≤ pagenum

def findBlock (blocks : List Block) (pagenum : ℕ) : Walk :=
  let passed := blocks.takeWhile (endsBefore pagenum)
  let new : Block := ⟨pagenum - pagenum % pagesPerBlock, fun _ => 0⟩
  match blocks.dropWhile (endsBefore pagenum) with
  | [] => ⟨passed, new, []⟩
  | pb :: rest => if pb.baseOffset > pagenum then ⟨passed, new, pb :: rest⟩ else ⟨passed, pb, rest⟩

/-- `VFS_MMap` of a file with `MMAP_MAP_FIXED` -/
def vfsMMap (s : State) (c : Call) : Option State := do
  -- ASSERT( DestHint != NULL )
  if c.destHint = 0 then none
  let (w, m) ← mapLoop c c.npages 0 (findBlock s.blocks (c.pagenum 0)) s.maps
  some ⟨w.blocks, m⟩

def Recorded (blocks : List Block) (page frame : ℕ) : Prop :=
  ∃ b ∈ blocks, b.baseOffset ≤ page ∧ page < b.baseOffset + pagesPerBlock ∧
    b.physAddrs (page - b.baseOffset) = frame ∧ frame ≠ 0

instance (blocks : List Block) (page frame : ℕ) : Decidable (Recorded blocks page frame) :=
  inferInstanceAs (Decidable (∃ b ∈ blocks, _))

/-- Blocks in order, and a page is mapped by its one frame, which holds that page of the file -/
structure Shared (blocks : List Block) (m : Maps) : Prop where
  aligned : ∀ b ∈ blocks, b.baseOffset % pagesPerBlock = 0
  increasing : blocks.Pairwise fun a b => a.baseOffset < b.baseOffset
  disjoint : blocks.Pairwise fun a b => a.baseOffset + pagesPerBlock ≤ b.baseOffset
  single : ∀ page f f', Recorded blocks page f → Recorded blocks page f' → f = f'
  served : ∀ r ∈ m.served, Recorded blocks r.1 r.2
  filled : ∀ page f, Recorded blocks page f → m.filled f = some (page * pageSize)

def Good (s : State) : Prop := Shared s.blocks s.maps

structure Start (s : State) : Prop where
  blocks : s.blocks = []
  filled : ∀ f, s.maps.filled f = none
  served : s.maps.served = []

/-- There is a destination, and the frames that are allocated are not in use. -/
structure Allowed (s : State) (c : Call) : Prop where
  dest : c.destHint ≠ 0
  nonzero : ∀ j, c.frames j ≠ 0
  distinct : Injective c.frames
  unfilled : ∀ j, s.maps.filled (c.frames j) = none
  unmapped : ∀ j d, s.maps.phys d ≠ c.frames j

/-- Every page that the call goes through lies below 4 GiB, and its destination is free or
already maps it. -/
def Meets (s : State) (c : Call) : Prop :=
  ∀ j, j < c.npages → c.filePage j < 2 ^ 20 ∧
    (s.maps.phys (c.dest j) = 0 ∨ Recorded s.blocks (c.filePage j) (s.maps.phys (c.dest j)))

section Records

variable {a b blocks : List Block} {pb : Block} {w w' : Walk} {page frame n : ℕ}

theorem recorded_append : Recorded (a ++ b) page frame ↔
    Recorded a page frame ∨ Recorded b page frame := by
  simp only [Recorded, mem_append, or_and_right, exists_or]

theorem recorded_cons (pb : Block) : Recorded (pb :: b) page frame ↔
    Recorded [pb] page frame ∨ Recorded b page frame := recorded_append (a := [pb])

theorem recorded_middle (n : ℕ) : Recorded (a ++ ⟨n, fun _ => 0⟩ :: b) page frame ↔
    Recorded (a ++ b) page frame := by
  have hempty : ¬ Recorded [⟨n, fun _ => 0⟩] page frame := by
    rintro ⟨b, hb, -, -, hzero, hframe⟩
    rw [mem_singleton.mp hb] at hzero
    exact hframe hzero.symm
  rw [recorded_append, recorded_append, recorded_cons]
  simp only [hempty, false_or]

theorem recorded_set (hle : pb.baseOffset ≤ n) (hlt : n < pb.baseOffset + pagesPerBlock)
    (hnone : pb.physAddrs (n - pb.baseOffset) = 0) {f : ℕ} (hf : f ≠ 0) :
    Recorded (a ++ { pb with physAddrs := update pb.physAddrs (n - pb.baseOffset) f } :: b)
        page frame ↔
      Recorded (a ++ pb :: b) page frame ∨ (page = n ∧ frame = f) := by
  have hone : Recorded [{ pb with
        physAddrs := update pb.physAddrs (n - pb.baseOffset) f }] page frame ↔
      Recorded [pb] page frame ∨ (page = n ∧ frame = f) := by
    simp only [Recorded, mem_singleton, exists_eq_left]
    by_cases hpage : page = n
    · rw [hpage, update_self, hnone]
      constructor
      · rintro ⟨-, -, rfl, -⟩
        exact .inr ⟨rfl, rfl⟩
      · rintro (⟨-, -, rfl, hne⟩ | ⟨-, rfl⟩)
        · exact absurd rfl hne
        · exact ⟨hle, hlt, rfl, hf⟩
    constructor
    · rintro ⟨hle', hlt', hframe, hne⟩
      rw [update_of_ne (by omega)] at hframe
      exact .inl ⟨hle', hlt', hframe, hne⟩
    · rintro (⟨hle', hlt', hframe, hne⟩ | ⟨heq, -⟩)
      · refine ⟨hle', hlt', ?_, hne⟩
        rw [update_of_ne (by omega)]
        exact hframe
      · exact absurd heq hpage
  rw [recorded_append, recorded_cons, hone, recorded_append (b := pb :: b),
    recorded_cons pb (b := b)]
  tauto

theorem rollOn_recorded (h : w.rollOn n = some w') :
    Recorded w'.blocks page frame ↔ Recorded w.blocks page frame := by
  rw [Walk.rollOn] at h
  split at h
  · split at h
    · rename_i hrest
      cases h
      rw [Walk.blocks, Walk.blocks, recorded_middle, hrest, append_nil]
    · rename_i next rest hrest
      split at h
      · cases h
        simp only [Walk.blocks, hrest, append_assoc, singleton_append]
      · split at h
        · cases h
        · cases h
          rw [Walk.blocks, recorded_middle]
          simp only [Walk.blocks, hrest, append_assoc, singleton_append]
  · cases h
    rfl

theorem findBlock_recorded (blocks : List Block) (n : ℕ) :
    Recorded (findBlock blocks n).blocks page frame ↔ Recorded blocks page frame := by
  have hsplit : blocks.takeWhile (endsBefore n) ++ blocks.dropWhile (endsBefore n) = blocks :=
    takeWhile_append_dropWhile
  rw [findBlock]
  split
  · rename_i hrest
    rw [hrest] at hsplit
    rw [Walk.blocks, recorded_middle, hsplit]
  · rename_i pb rest hrest
    rw [hrest] at hsplit
    split
    · rw [Walk.blocks, recorded_middle, hsplit]
    · rw [Walk.blocks, hsplit]

end Records

variable {c : Call} {j : ℕ} {w w' : Walk} {m m' : Maps} {page frame : ℕ}

/-- What a round does: the destination was mapped, the page had been read, or it is read now -/
inductive Round (c : Call) (j : ℕ) (pb : Block) (m m' : Maps) : Block → Prop where
  | kept (hmapped : m.phys (c.dest j) ≠ 0) (hphys : m'.phys = m.phys)
      (hfilled : m'.filled = m.filled) : Round c j pb m m' pb
  | again (hfree : m.phys (c.dest j) = 0)
      (hread : pb.physAddrs (c.pagenum j - pb.baseOffset) ≠ 0)
      (hphys : m'.phys = update m.phys (c.dest j) (pb.physAddrs (c.pagenum j - pb.baseOffset)))
      (hfilled : m'.filled = m.filled) : Round c j pb m m' pb
  | read (hfree : m.phys (c.dest j) = 0)
      (hunread : pb.physAddrs (c.pagenum j - pb.baseOffset) = 0)
      (hphys : m'.phys = update m.phys (c.dest j) (c.frames j))
      (hfilled : m'.filled = update m.filled (c.frames j)
        (some (c.pagenum j * pageSize % 2 ^ 32))) :
      Round c j pb m m' { pb with
        physAddrs := update pb.physAddrs (c.pagenum j - pb.baseOffset) (c.frames j) }

variable {m₁ m₂ : Maps} {pb pb' : Block}

theorem Round.congr (h : Round c j pb m m₁ pb')
    (hphys : m₂.phys = m₁.phys) (hfilled : m₂.filled = m₁.filled) : Round c j pb m m₂ pb' := by
  cases h with
  | kept hmapped hp hf => exact .kept hmapped (hphys.trans hp) (hfilled.trans hf)
  | again hfree hread hp hf => exact .again hfree hread (hphys.trans hp) (hfilled.trans hf)
  | read hfree hunread hp hf => exact .read hfree hunread (hphys.trans hp) (hfilled.trans hf)

section

variable (c) (j) (pb)

theorem mapPage_round (m : Maps) :
    let r := if m.phys (c.dest j) = 0 then vfsMMapMapPage c j pb m else (pb, flagUpdate c j m)
    Round c j pb m r.2 r.1 ∧ r.2.served = m.served := by
  by_cases hfree : m.phys (c.dest j) = 0
  · rw [if_pos hfree]
    by_cases hread : pb.physAddrs (c.pagenum j - pb.baseOffset) = 0
    · simp only [vfsMMapMapPage, hread, ne_eq, not_true_eq_false, if_false, update_self]
      exact ⟨.read hfree hread rfl rfl, rfl⟩
    · simp only [vfsMMapMapPage, ne_eq, hread, not_false_eq_true, if_true]
      exact ⟨.again hfree hread rfl rfl, rfl⟩
  · rw [if_neg hfree, flagUpdate]
    split <;> exact ⟨.kept hfree rfl rfl, rfl⟩

end

theorem serve_round (h : Round c j pb m m₁ pb') (hserved : m₁.served = m.served) :
    let m' := (markPrivate c j m₁).serve (c.filePage j) (c.dest j)
    Round c j pb m m' pb' ∧ m'.served = m.served ++ [(c.filePage j, m'.phys (c.dest j))] := by
  rw [markPrivate, ← hserved]
  split <;> exact ⟨h.congr rfl rfl, rfl⟩

theorem mapRound_eq (c : Call) (j : ℕ) (w : Walk) (m : Maps)
    (hle : w.pb.baseOffset ≤ c.pagenum j) (hlt : c.pagenum j < w.pb.baseOffset + pagesPerBlock) :
    ∃ pb m', Round c j w.pb m m' pb ∧ m'.served = m.served ++ [(c.filePage j, m'.phys (c.dest j))] ∧
      mapRound c j w m = ({ w with pb := pb }.rollOn (c.pagenum (j + 1))).map fun w => (w, m') := by
  have hin : ¬ (c.pagenum j < w.pb.baseOffset ∨ pagesPerBlock ≤ c.pagenum j - w.pb.baseOffset) := by
    omega
  rw [mapRound, if_neg hin]
  obtain ⟨hround, hserved⟩ := mapPage_round c j w.pb m
  obtain ⟨hround', hserved'⟩ := serve_round hround hserved
  exact ⟨_, _, hround', hserved', rfl⟩

theorem mapRound_cases (h : mapRound c j w m = some (w', m')) :
    w.pb.baseOffset ≤ c.pagenum j ∧ c.pagenum j < w.pb.baseOffset + pagesPerBlock ∧
      ∃ pb, Round c j w.pb m m' pb ∧ m'.served = m.served ++ [(c.filePage j, m'.phys (c.dest j))] ∧
        { w with pb := pb }.rollOn (c.pagenum (j + 1)) = some w' := by
  have hin : ¬ (c.pagenum j < w.pb.baseOffset ∨ pagesPerBlock ≤ c.pagenum j - w.pb.baseOffset) := by
    intro hout
    rw [mapRound, if_pos hout] at h
    cases h
  obtain ⟨pb, m₁, hround, hserved, heq⟩ := mapRound_eq c j w m (by omega) (by omega)
  rw [heq] at h
  obtain ⟨w₁, hroll, hw⟩ := map_eq_some_iff.mp h
  cases hw
  exact ⟨by omega, by omega, pb, hround, hserved, hroll⟩

theorem Round.mapped (h : Round c j pb m m' pb') (hframe : c.frames j ≠ 0) :
    m'.phys (c.dest j) ≠ 0 := by
  cases h with
  | kept hmapped hphys _ => rwa [hphys]
  | again _ hread hphys _ => rwa [hphys, update_self]
  | read _ _ hphys _ => rwa [hphys, update_self]

theorem Round.phys_keep (h : Round c j pb m m' pb') {d : VPage}
    (hd : m.phys d ≠ 0) : m'.phys d = m.phys d := by
  cases h with
  | kept _ hphys _ => rw [hphys]
  | again hfree _ hphys _ | read hfree _ hphys _ =>
    have hne : d ≠ c.dest j := fun heq => hd (heq ▸ hfree)
    rw [hphys, update_of_ne hne]

theorem Round.recorded (h : Round c j w.pb m m' pb')
    (hle : w.pb.baseOffset ≤ c.pagenum j) (hlt : c.pagenum j < w.pb.baseOffset + pagesPerBlock)
    (hframe : c.frames j ≠ 0) (hr : Recorded { w with pb := pb' }.blocks page frame) :
    Recorded w.blocks page frame ∨ (page = c.pagenum j ∧ frame = c.frames j ∧
      m'.filled frame = some (page * pageSize % 2 ^ 32)) := by
  cases h with
  | kept | again => exact .inl hr
  | read _ hunread _ hfilled =>
    rcases (recorded_set hle hlt hunread hframe).mp hr with hold | ⟨rfl, rfl⟩
    · exact .inl hold
    · exact .inr ⟨rfl, rfl, by rw [hfilled, update_self]⟩

def Small (m : Maps) : Prop := ∀ f o, m.filled f = some o → o < 2 ^ 32

theorem Round.small (h : Round c j pb m m' pb') (hm : Small m) : Small m' := by
  intro f o hf
  cases h with
  | kept _ _ hfilled | again _ _ _ hfilled => exact hm f o (hfilled ▸ hf)
  | read _ _ _ hfilled =>
    rw [hfilled] at hf
    by_cases heq : f = c.frames j
    · rw [heq, update_self] at hf
      rw [← some.inj hf]
      exact mod_lt _ (by decide)
    · rw [update_of_ne heq] at hf
      exact hm f o hf

structure Effect (c : Call) (w : Walk) (m : Maps) (w' : Walk) (m' : Maps) : Prop where
  phys : ∀ d, m.phys d ≠ 0 → m'.phys d = m.phys d
  served : ∀ r ∈ m.served, r ∈ m'.served
  recorded : ∀ page frame, Recorded w'.blocks page frame →
    Recorded w.blocks page frame ∨ ∃ i, frame = c.frames i
  small : Small m → Small m'

theorem Effect.refl (c : Call) (w : Walk) (m : Maps) : Effect c w m w m where
  phys _ _ := rfl
  served _ hr := hr
  recorded _ _ hr := .inl hr
  small hm := hm

theorem Effect.trans {w₁ w₂ w₃ : Walk} {m₃ : Maps} (h : Effect c w₁ m₁ w₂ m₂)
    (h' : Effect c w₂ m₂ w₃ m₃) : Effect c w₁ m₁ w₃ m₃ := by
  constructor
  case phys =>
    intro d hd
    have hkeep := h.phys d hd
    rw [h'.phys d (hkeep ▸ hd), hkeep]
  case served => exact fun r hr => h'.served r (h.served r hr)
  case recorded =>
    intro page frame hr
    rcases h'.recorded page frame hr with hr₂ | hnew
    · exact h.recorded page frame hr₂
    · exact .inr hnew
  case small => exact fun hm => h'.small (h.small hm)

theorem mapRound_effect (hnonzero : ∀ i, c.frames i ≠ 0) (h : mapRound c j w m = some (w', m')) :
    Effect c w m w' m' ∧ (c.filePage j, m'.phys (c.dest j)) ∈ m'.served ∧
      m'.phys (c.dest j) ≠ 0 := by
  obtain ⟨hle, hlt, pb, hround, hserved, hroll⟩ := mapRound_cases h
  refine ⟨⟨fun d hd => hround.phys_keep hd, ?_, ?_, hround.small⟩, ?_, hround.mapped (hnonzero j)⟩
  · intro r hr
    rw [hserved]
    exact mem_append_left _ hr
  · intro page frame hr
    rw [rollOn_recorded hroll] at hr
    rcases hround.recorded hle hlt (hnonzero j) hr with hold | ⟨-, hnew, -⟩
    · exact .inl hold
    · exact .inr ⟨j, hnew⟩
  · rw [hserved]
    exact mem_append_right _ (mem_singleton_self _)

theorem mapLoop_effect (hnonzero : ∀ i, c.frames i ≠ 0) {left : ℕ}
    (h : mapLoop c left j w m = some (w', m')) :
    Effect c w m w' m' ∧
      ∀ i, j ≤ i → i < j + left → (c.filePage i, m'.phys (c.dest i)) ∈ m'.served := by
  induction left generalizing j w m with
  | zero =>
    cases h
    exact ⟨Effect.refl c w' m', fun i hji hij => absurd hij (by omega)⟩
  | succ left ih =>
    obtain ⟨⟨w₁, m₁⟩, hround, hrest⟩ := bind_eq_some_iff.mp h
    obtain ⟨heffect, hserved, hmapped⟩ := mapRound_effect hnonzero hround
    obtain ⟨heffect', hserved'⟩ := ih hrest
    refine ⟨heffect.trans heffect', fun i hji hij => ?_⟩
    rcases eq_or_lt_of_le hji with rfl | hlt
    · rw [heffect'.phys _ hmapped]
      exact heffect'.served _ hserved
    · exact hserved' i hlt (by omega)

variable {n : ℕ}

structure Spaced (bases : List ℕ) : Prop where
  aligned : ∀ n ∈ bases, n % pagesPerBlock = 0
  disjoint : bases.Pairwise fun a b => a + pagesPerBlock ≤ b

theorem Spaced.insert {a b : List ℕ} (h : Spaced (a ++ b)) (hn : n % pagesPerBlock = 0)
    (ha : ∀ x ∈ a, x + pagesPerBlock ≤ n) (hb : ∀ y ∈ b, n + pagesPerBlock ≤ y) :
    Spaced (a ++ n :: b) := by
  obtain ⟨hpa, hpb, hab⟩ := pairwise_append.mp h.disjoint
  constructor
  case aligned =>
    obtain ⟨haligned, haligned'⟩ := forall_mem_append.mp h.aligned
    exact forall_mem_append.mpr ⟨haligned, forall_mem_cons.mpr ⟨hn, haligned'⟩⟩
  case disjoint =>
    exact pairwise_append.mpr ⟨hpa, pairwise_cons.mpr ⟨hb, hpb⟩,
      fun x hx => forall_mem_cons.mpr ⟨ha x hx, hab x hx⟩⟩

def Walk.Covers (w : Walk) (n : ℕ) : Prop :=
  w.pb.baseOffset ≤ n ∧ n < w.pb.baseOffset + pagesPerBlock

def Walk.bases (w : Walk) : List ℕ := w.blocks.map Block.baseOffset

theorem bases_eq (w : Walk) : w.bases =
    w.passed.map Block.baseOffset ++ w.pb.baseOffset :: w.rest.map Block.baseOffset := by
  rw [Walk.bases, Walk.blocks, map_append, map_cons]

theorem aligned_gap {x y : ℕ} (hx : x % pagesPerBlock = 0) (hy : y % pagesPerBlock = 0)
    (h : x < y) : x + pagesPerBlock ≤ y := by
  rw [pagesPerBlock] at *
  omega

theorem rollOn_spaced (h : Spaced w.bases) (hle : w.pb.baseOffset ≤ n)
    (hlt : n ≤ w.pb.baseOffset + pagesPerBlock) :
    ∃ w', w.rollOn n = some w' ∧ Spaced w'.bases ∧ w'.Covers n := by
  have hcover : n < n + pagesPerBlock := Nat.lt_add_of_pos_right (by decide)
  rw [Walk.rollOn]
  split
  · rename_i hn
    rw [bases_eq] at h
    have hpb : w.pb.baseOffset % pagesPerBlock = 0 := h.aligned _ (by simp)
    have haligned : n % pagesPerBlock = 0 := by
      rw [hn, add_mod_right, hpb]
    obtain ⟨-, hpairs, hab⟩ := pairwise_append.mp h.disjoint
    obtain ⟨hafter, hbehind⟩ := pairwise_cons.mp hpairs
    have hpassed : ∀ x ∈ (w.passed ++ [w.pb]).map Block.baseOffset, x + pagesPerBlock ≤ n := by
      rw [map_append, forall_mem_append, map_singleton, forall_mem_singleton]
      refine ⟨fun x hx => ?_, hn.ge⟩
      have := hab x hx _ (mem_cons_self ..)
      omega
    split
    · rename_i hrest
      rw [hrest, map_nil] at h
      refine ⟨_, rfl, ?_, le_refl n, hcover⟩
      rw [bases_eq]
      refine Spaced.insert ?_ haligned hpassed (by simp)
      simpa using h
    rename_i next rest hrest
    rw [hrest, map_cons] at h hafter hbehind
    split
    · rename_i hnext
      refine ⟨_, rfl, ?_, le_of_eq hnext, hnext ▸ hcover⟩
      rw [bases_eq]
      simpa using h
    have hnext := hafter _ (mem_cons_self ..)
    have halign : next.baseOffset % pagesPerBlock = 0 := h.aligned _ (by simp)
    rw [if_neg (not_not.mpr halign)]
    refine ⟨_, rfl, ?_, le_refl n, hcover⟩
    rw [bases_eq]
    refine Spaced.insert ?_ haligned hpassed ?_
    · simpa using h
    · -- the blocks behind are aligned, so one that does not start here leaves room
      intro y hy
      have hya : y % pagesPerBlock = 0 := h.aligned y (mem_append_right _ (mem_cons_of_mem _ hy))
      apply aligned_gap haligned hya
      rcases mem_cons.mp hy with rfl | hy
      · omega
      · have := (pairwise_cons.mp hbehind).1 y hy
        omega
  · exact ⟨w, rfl, h, hle, by omega⟩

theorem findBlock_spaced {blocks : List Block} (h : Spaced (blocks.map Block.baseOffset)) (n : ℕ) :
    Spaced (findBlock blocks n).bases ∧ (findBlock blocks n).Covers n := by
  have hbase : (n - n % pagesPerBlock) % pagesPerBlock = 0 := by
    rw [pagesPerBlock]
    omega
  have hcover : n < n - n % pagesPerBlock + pagesPerBlock := by
    rw [pagesPerBlock]
    omega
  have hsplit : blocks.takeWhile (endsBefore n) ++ blocks.dropWhile (endsBefore n) = blocks :=
    takeWhile_append_dropWhile
  have hpassed : ∀ x ∈ (blocks.takeWhile (endsBefore n)).map Block.baseOffset,
      x + pagesPerBlock ≤ n - n % pagesPerBlock := by
    intro x hx
    obtain ⟨b, hb, rfl⟩ := mem_map.mp hx
    have hbefore : endsBefore n b = true := mem_takeWhile_imp hb
    have hle : b.baseOffset + pagesPerBlock ≤ n := of_decide_eq_true hbefore
    have hb' := h.aligned b.baseOffset (mem_map_of_mem (takeWhile_subset _ hb))
    rw [pagesPerBlock] at hle hb' ⊢
    omega
  rw [← hsplit, map_append] at h
  rw [findBlock]
  split
  · rename_i hrest
    rw [hrest] at h
    refine ⟨?_, sub_le .., hcover⟩
    rw [bases_eq]
    exact h.insert hbase hpassed (by simp)
  rename_i pb rest hrest
  have hpb := head?_dropWhile_not (endsBefore n) blocks
  rw [hrest] at h hpb
  simp only [head?_cons, endsBefore, decide_eq_false_iff_not] at hpb
  split
  · refine ⟨?_, sub_le .., hcover⟩
    rw [bases_eq]
    refine h.insert hbase hpassed fun y hy => ?_
    have hya := h.aligned y (mem_append_right _ hy)
    apply aligned_gap hbase hya
    rcases mem_cons.mp hy with rfl | hy
    · omega
    · have := (pairwise_cons.mp (pairwise_append.mp h.disjoint).2.1).1 y hy
      omega
  · rename_i hbelow
    rw [bases_eq]
    exact ⟨h, Nat.le_of_not_lt hbelow, Nat.lt_of_not_le hpb⟩

variable {blocks : List Block}

structure Kept (blocks : List Block) (m : Maps) : Prop where
  spaced : Spaced (blocks.map Block.baseOffset)
  served : ∀ r ∈ m.served, Recorded blocks r.1 r.2
  filled : ∀ page f, Recorded blocks page f → m.filled f = some (page * pageSize)

variable {f : ℕ}

theorem recorded_unique (h : blocks.Pairwise fun a b => a.baseOffset + pagesPerBlock ≤ b.baseOffset)
    {f' : ℕ} (hf : Recorded blocks page f) (hf' : Recorded blocks page f') : f = f' := by
  obtain ⟨b, hb, hle, hlt, rfl, -⟩ := hf
  obtain ⟨b', hb', hle', hlt', rfl, -⟩ := hf'
  suffices heq : b = b' by rw [heq]
  by_contra hne
  have : Std.Symm fun a b : Block => a.baseOffset + pagesPerBlock ≤ b.baseOffset ∨
      b.baseOffset + pagesPerBlock ≤ a.baseOffset := ⟨fun _ _ => Or.symm⟩
  have hapart : blocks.Pairwise fun a b => a.baseOffset + pagesPerBlock ≤ b.baseOffset ∨
      b.baseOffset + pagesPerBlock ≤ a.baseOffset := h.imp .inl
  rcases hapart.forall hb hb' hne with hlt | hlt <;> omega

theorem Kept.shared (h : Kept blocks m) : Shared blocks m := by
  have hdisjoint := pairwise_map.mp h.spaced.disjoint
  constructor
  case aligned => exact fun b hb => h.spaced.aligned _ (mem_map_of_mem hb)
  case increasing => exact hdisjoint.imp fun hle => lt_of_lt_of_le (by simp [pagesPerBlock]) hle
  case disjoint => exact hdisjoint
  case single => exact fun page f f' => recorded_unique hdisjoint
  case served => exact h.served
  case filled => exact h.filled

theorem Shared.kept (h : Shared blocks m) : Kept blocks m where
  spaced := ⟨forall_mem_map.mpr h.aligned, pairwise_map.mpr h.disjoint⟩
  served := h.served
  filled := h.filled

structure Ready (c : Call) (j : ℕ) (w : Walk) (m : Maps) : Prop where
  kept : Kept w.blocks m
  covers : w.Covers (c.pagenum j)
  unfilled : ∀ i, j ≤ i → m.filled (c.frames i) = none
  dests : ∀ i, j ≤ i → i < c.npages →
    m.phys (c.dest i) = 0 ∨ Recorded w.blocks (c.filePage i) (m.phys (c.dest i))

theorem pagenum_eq (h : c.filePage j < 2 ^ 32) : c.pagenum j = c.filePage j :=
  mod_eq_of_lt h

theorem dest_injective (c : Call) : Injective c.dest := by
  intro i j h
  have := (Prod.mk.inj h).2
  omega

theorem Ready.unrecorded (h : Ready c j w m) {i : ℕ} (hi : j ≤ i) :
    ¬ Recorded w.blocks page (c.frames i) := by
  intro hr
  have hfilled := h.kept.filled page _ hr
  rw [h.unfilled i hi] at hfilled
  cases hfilled

theorem Round.phys_other (h : Round c j pb m m' pb') {d : VPage}
    (hd : d ≠ c.dest j) : m'.phys d = m.phys d := by
  cases h with
  | kept _ hphys _ => rw [hphys]
  | again _ _ hphys _ | read _ _ hphys _ => rw [hphys, update_of_ne hd]

theorem Round.filled_other (h : Round c j pb m m' pb')
    (hf : f ≠ c.frames j) : m'.filled f = m.filled f := by
  cases h with
  | kept _ _ hfilled | again _ _ _ hfilled => rw [hfilled]
  | read _ _ _ hfilled => rw [hfilled, update_of_ne hf]

section

variable (h : Round c j w.pb m m' pb') (hcovers : w.Covers (c.pagenum j)) (hframe : c.frames j ≠ 0)
include h hcovers hframe

theorem Round.recorded_mono
    (hr : Recorded w.blocks page f) : Recorded { w with pb := pb' }.blocks page f := by
  cases h with
  | kept | again => exact hr
  | read _ hunread _ _ =>
    exact (recorded_set hcovers.1 hcovers.2 hunread hframe).mpr (.inl hr)

theorem Round.serves (hpage : c.pagenum j = c.filePage j)
    (hdest : m.phys (c.dest j) = 0 ∨ Recorded w.blocks (c.filePage j) (m.phys (c.dest j))) :
    Recorded { w with pb := pb' }.blocks (c.filePage j) (m'.phys (c.dest j)) := by
  rw [← hpage] at hdest ⊢
  cases h with
  | kept hmapped hphys _ =>
    rw [hphys]
    exact hdest.resolve_left hmapped
  | again _ hread hphys _ =>
    rw [hphys, update_self]
    exact ⟨w.pb, mem_append_right _ (mem_cons_self ..), hcovers.1, hcovers.2, rfl, hread⟩
  | read _ hunread hphys _ =>
    rw [hphys, update_self]
    exact (recorded_set hcovers.1 hcovers.2 hunread hframe).mpr (.inr ⟨rfl, rfl⟩)

end

theorem Round.bases (h : Round c j w.pb m m' pb') : { w with pb := pb' }.bases = w.bases := by
  rw [bases_eq, bases_eq]
  cases h <;> rfl

/-- A round of a page below 4 GiB goes through, and the next round finds the same. -/
theorem mapRound_ready (hready : Ready c j w m) (hj : j < c.npages)
    (hsmall : c.filePage j < 2 ^ 20) (hnonzero : ∀ i, c.frames i ≠ 0)
    (hdistinct : Injective c.frames) :
    ∃ w' m', mapRound c j w m = some (w', m') ∧ Ready c (j + 1) w' m' := by
  have hpage : c.pagenum j = c.filePage j := pagenum_eq (hsmall.trans (by decide))
  have hnext : c.pagenum (j + 1) = c.pagenum j + 1 := by
    have hlt : c.filePage (j + 1) < 2 ^ 32 := by
      rw [Call.filePage] at hsmall ⊢
      omega
    rw [pagenum_eq hlt, hpage, Call.filePage, Call.filePage, add_assoc]
  obtain ⟨hle, hlt⟩ := hready.covers
  obtain ⟨pb, m', hround, hserved, heq⟩ := mapRound_eq c j w m hle hlt
  have hbase : pb.baseOffset = w.pb.baseOffset := by cases hround <;> rfl
  have hspaced : Spaced { w with pb := pb }.bases := hround.bases ▸ hready.kept.spaced
  obtain ⟨w', hroll, hspaced', hcovers'⟩ := rollOn_spaced (n := c.pagenum (j + 1)) hspaced
    (by change pb.baseOffset ≤ _; omega) (by change _ ≤ pb.baseOffset + _; omega)
  have hmono : ∀ page f, Recorded w.blocks page f → Recorded w'.blocks page f := fun page f hr =>
    (rollOn_recorded hroll).mpr (hround.recorded_mono hready.covers (hnonzero j) hr)
  refine ⟨w', m', by rw [heq, hroll]; rfl, ⟨⟨hspaced', ?_, ?_⟩, hcovers', ?_, ?_⟩⟩
  · intro r hr
    rw [hserved] at hr
    rcases mem_append.mp hr with hold | hnew
    · exact hmono _ _ (hready.kept.served r hold)
    · rw [mem_singleton.mp hnew, rollOn_recorded hroll]
      exact hround.serves hready.covers (hnonzero j) hpage (hready.dests j le_rfl hj)
  · intro page f hr
    rw [rollOn_recorded hroll] at hr
    rcases hround.recorded hle hlt (hnonzero j) hr with hold | ⟨rfl, rfl, hfilled⟩
    · have hne : f ≠ c.frames j := fun heq => hready.unrecorded le_rfl (heq ▸ hold)
      rw [hround.filled_other hne]
      exact hready.kept.filled page f hold
    · rw [hfilled, hpage, mod_eq_of_lt]
      rw [pageSize]
      omega
  · intro i hi
    have hne : c.frames i ≠ c.frames j := fun heq => absurd (hdistinct heq) (by omega)
    rw [hround.filled_other hne]
    exact hready.unfilled i (by omega)
  · intro i hi hlt
    have hne : c.dest i ≠ c.dest j := fun heq => absurd (dest_injective c heq) (by omega)
    rw [hround.phys_other hne]
    exact (hready.dests i (by omega) hlt).imp_right (hmono _ _)

theorem mapLoop_ready (hsmall : ∀ i, i < c.npages → c.filePage i < 2 ^ 20)
    (hnonzero : ∀ i, c.frames i ≠ 0) (hdistinct : Injective c.frames) {left : ℕ}
    (hready : Ready c j w m) (hleft : j + left = c.npages) :
    ∃ w' m', mapLoop c left j w m = some (w', m') ∧ Kept w'.blocks m' := by
  induction left generalizing j w m with
  | zero => exact ⟨w, m, rfl, hready.kept⟩
  | succ left ih =>
    obtain ⟨w₁, m₁, hround, hready₁⟩ :=
      mapRound_ready hready (by omega) (hsmall j (by omega)) hnonzero hdistinct
    obtain ⟨w', m', hloop, hkept⟩ := ih hready₁ (by omega)
    refine ⟨w', m', ?_, hkept⟩
    rw [mapLoop, hround]
    exact hloop

variable {s t : State}

theorem vfsMMap_eq (hdest : c.destHint ≠ 0) : vfsMMap s c =
    (mapLoop c c.npages 0 (findBlock s.blocks (c.pagenum 0)) s.maps).map
      fun r => ⟨r.1.blocks, r.2⟩ := by
  rw [vfsMMap, if_neg hdest]
  cases mapLoop c c.npages 0 (findBlock s.blocks (c.pagenum 0)) s.maps <;> rfl

def Inv (s : State) : Prop := Good s ∧ Small s.maps

theorem Start.inv (h : Start s) : Inv s := by
  have hnone : ∀ page f, ¬ Recorded s.blocks page f := by
    rintro page f ⟨b, hb, -⟩
    rw [h.blocks] at hb
    cases hb
  refine ⟨Kept.shared ⟨?_, ?_, ?_⟩, ?_⟩
  · rw [h.blocks]
    exact ⟨by simp, by simp⟩
  · rw [h.served]
    simp
  · exact fun page f hr => absurd hr (hnone page f)
  · intro f o hf
    rw [h.filled f] at hf
    cases hf

theorem Allowed.ready (h : Allowed s c) (hs : Good s) (hmeets : Meets s c) :
    Ready c 0 (findBlock s.blocks (c.pagenum 0)) s.maps := by
  obtain ⟨hspaced, hcovers⟩ := findBlock_spaced hs.kept.spaced (c.pagenum 0)
  constructor
  case kept =>
    refine ⟨hspaced, fun r hr => ?_, fun page f hr => ?_⟩
    · exact (findBlock_recorded ..).mpr (hs.served r hr)
    · exact hs.filled page f ((findBlock_recorded ..).mp hr)
  case covers => exact hcovers
  case unfilled => exact fun i _ => h.unfilled i
  case dests => exact fun i _ hi => (hmeets i hi).2.imp_right (findBlock_recorded ..).mpr

theorem vfsMMap_inv (s : State) (c : Call) (hs : Inv s) (hallowed : Allowed s c)
    (hmeets : Meets s c) : ∃ t, vfsMMap s c = some t ∧ Inv t := by
  obtain ⟨w, m, hloop, hkept⟩ := mapLoop_ready (fun i hi => (hmeets i hi).1) hallowed.nonzero
    hallowed.distinct (hallowed.ready hs.1 hmeets) (zero_add _)
  refine ⟨⟨w.blocks, m⟩, ?_, hkept.shared, (mapLoop_effect hallowed.nonzero hloop).1.small hs.2⟩
  rw [vfsMMap_eq hallowed.dest, hloop]
  rfl

theorem meets_of_good (s : State) (c : Call) (t : State) (hs : Inv s) (hallowed : Allowed s c)
    (h : vfsMMap s c = some t) (ht : Good t) : Meets s c := by
  rw [vfsMMap_eq hallowed.dest] at h
  obtain ⟨⟨w, m⟩, hloop, rfl⟩ := map_eq_some_iff.mp h
  obtain ⟨heffect, hserved⟩ := mapLoop_effect hallowed.nonzero hloop
  intro j hj
  have hrecorded : Recorded w.blocks (c.filePage j) (m.phys (c.dest j)) :=
    ht.served _ (hserved j (zero_le j) (by omega))
  constructor
  · have hoffset := heffect.small hs.2 _ _ (ht.filled _ _ hrecorded)
    rw [pageSize] at hoffset
    omega
  · by_cases hfree : s.maps.phys (c.dest j) = 0
    · exact .inl hfree
    · rw [heffect.phys _ hfree] at hrecorded
      rcases heffect.recorded _ _ hrecorded with hold | ⟨i, hnew⟩
      · exact .inr ((findBlock_recorded ..).mp hold)
      · exact absurd hnew (hallowed.unmapped i _)

/-- All calls meet the condition iff every call goes through and leaves the blocks in order and
every page of the file in one frame that all its destinations map. -/
theorem mappings_shared_iff (cs : List Call) (hs : Start s)
    (hallowed : Along vfsMMap Allowed s cs) :
    Along vfsMMap Meets s cs ↔ ∀ ds, ds <+: cs → ∃ t, run vfsMMap s ds = some t ∧ Good t :=
  along_iff_prefixes vfsMMap_inv (fun _ h => h.1) meets_of_good hs.inv hallowed

def sampleStart : State :=
  ⟨[], ⟨fun _ => 0, fun _ => ⟨false, false, false⟩, fun _ => 0, 1, fun _ => none, []⟩⟩

theorem sampleStart_start : Start sampleStart := ⟨rfl, fun _ => rfl, rfl⟩

section

variable (length offset : BitVec 64)

def sampleCall : Call :=
  ⟨1, 0x400000, length, offset, false, false, false, fun j => 100 + j⟩

theorem sampleCall_allowed : Allowed sampleStart (sampleCall length offset) where
  dest := by simp [sampleCall]
  nonzero j := by simp [sampleCall]
  distinct i j h := add_left_cancel h
  unfilled _ := rfl
  unmapped j d := by
    simp only [sampleStart, sampleCall]
    omega

theorem sampleCall_along : Along vfsMMap Allowed sampleStart [sampleCall length offset] :=
  ⟨sampleCall_allowed length offset, fun _ _ => trivial⟩

end

/-- Three pages over the end of a block -/
theorem sample_mappings_shared : Along vfsMMap Meets sampleStart [sampleCall 0x3000 0xF000] ∧
      ∀ ds, ds <+: [sampleCall 0x3000 0xF000] →
        ∃ t, run vfsMMap sampleStart ds = some t ∧ Good t := by
  have hpages : (sampleCall 0x3000 0xF000).npages = 3 := by decide
  have hmeets : Along vfsMMap Meets sampleStart [sampleCall 0x3000 0xF000] := by
    refine ⟨fun j hj => ⟨?_, .inl rfl⟩, fun _ _ => trivial⟩
    have hpage : (sampleCall 0x3000 0xF000).filePage j = 15 + j := rfl
    omega
  exact ⟨hmeets, (mappings_shared_iff _ sampleStart_start (sampleCall_along _ _)).mp hmeets⟩

/-- The page at 4 GiB is read from the start of the file. -/
theorem far_page_from_start : Along vfsMMap Allowed sampleStart [sampleCall 0x1000 0x100000000] ∧
      ∃ t, run vfsMMap sampleStart [sampleCall 0x1000 0x100000000] = some t ∧
        Recorded t.blocks (2 ^ 20) 100 ∧ t.maps.filled 100 = some 0 ∧ ¬ Good t := by
  have heval : (run vfsMMap sampleStart [sampleCall 0x1000 0x100000000]).map
      (fun t => (decide (Recorded t.blocks (2 ^ 20) 100), t.maps.filled 100)) =
        some (true, some 0) := by decide +kernel
  obtain ⟨t, hrun, ht⟩ := map_eq_some_iff.mp heval
  obtain ⟨hrecorded, hfilled⟩ := Prod.mk.inj ht
  have hpage := of_decide_eq_true hrecorded
  refine ⟨sampleCall_along _ _, t, hrun, hpage, hfilled, fun hgood => ?_⟩
  have hexact := hgood.filled _ _ hpage
  cases hfilled.symm.trans hexact

end VfsMMap
