import Acess2.GuardedRuns
import Acess2.Histories
import Acess2.IoCache
import Acess2.WordBitmaps

/-! What the cache of disk sectors holds.
The sectors of a page share its frame and its bitmap. Where the size of a sector divides that of
a page they do not meet there, and every sector that is present holds what was stored last. -/
namespace IoCacheCoherence

open BufferCopies GuardedRuns Histories IoCache List SortedLists WordBitmaps Nat

section Layout

variable {c : Cache} {s t size : ℕ}

def Unwrapped (size s : ℕ) : Prop := s * size < 2 ^ 64

def Fits (size s : ℕ) : Prop := Unwrapped size s ∧ s * size % pageSize + size ≤ pageSize

instance (size s : ℕ) : Decidable (Fits size s) := inferInstanceAs (Decidable (_ < _ ∧ _ ≤ _))

def index (c : Cache) (s : ℕ) : ℕ := c.offset s / c.sectorSize

theorem fits_of_dvd (hdvd : size ∣ pageSize) (hs : Unwrapped size s) : Fits size s := by
  refine ⟨hs, ?_⟩
  obtain ⟨m, hm⟩ := hdvd
  have hlt : s * size % pageSize < pageSize := mod_lt _ (by decide)
  have hoffset : s * size % pageSize = s % m * size := by
    rw [hm, mul_comm size m]
    exact mul_mod_mul_right ..
  rw [hoffset] at hlt ⊢
  rw [hm, mul_comm size m] at hlt ⊢
  rw [← succ_mul]
  exact Nat.mul_le_mul_right _ (Nat.lt_of_mul_lt_mul_right hlt)

theorem inside_of_fits (hs : Fits c.sectorSize s) : c.Inside s := by
  have haddress : c.address s = s * c.sectorSize := mod_eq_of_lt hs.1
  rw [Cache.Inside, Cache.offset, haddress]
  exact hs.2

theorem address_unwrapped (hs : Unwrapped c.sectorSize s) :
    c.base s + c.offset s = s * c.sectorSize := by
  have haddress : c.address s = s * c.sectorSize := mod_eq_of_lt hs
  rw [Cache.base, Cache.offset, haddress]
  exact div_add_mod' _ _

theorem index_lt (hlarge : 512 ≤ c.sectorSize) : index c s < 32 := by
  have hoffset : c.offset s < pageSize := mod_lt _ (by decide)
  apply (div_lt_iff_lt_mul (by omega)).mpr
  calc c.offset s < pageSize := hoffset
    _ ≤ 32 * 512 := by decide
    _ ≤ 32 * c.sectorSize := mul_le_mul_left 32 hlarge

section

variable (hs : Unwrapped c.sectorSize s)
  (ht : Unwrapped c.sectorSize t) (hbase : c.base s = c.base t)
include hs ht hbase

theorem offset_le_of_lt (hlt : s < t) : c.offset s + c.sectorSize ≤ c.offset t := by
  have hmul : (s + 1) * c.sectorSize ≤ t * c.sectorSize := mul_le_mul_right _ hlt
  rw [succ_mul, ← address_unwrapped hs, ← address_unwrapped ht, hbase] at hmul
  omega

theorem sectors_apart (hne : s ≠ t) :
    c.offset s + c.sectorSize ≤ c.offset t ∨ c.offset t + c.sectorSize ≤ c.offset s := by
  rcases lt_or_gt_of_ne hne with hlt | hgt
  · exact .inl (offset_le_of_lt hs ht hbase hlt)
  · exact .inr (offset_le_of_lt ht hs hbase.symm hgt)

end

variable (hlarge : 512 ≤ c.sectorSize)
include hlarge

theorem index_lt_index (hle : c.offset s + c.sectorSize ≤ c.offset t) : index c s < index c t := by
  have hpos : 0 < c.sectorSize := by omega
  calc index c s < index c s + 1 := lt_succ_self _
    _ = (c.offset s + c.sectorSize) / c.sectorSize := (add_div_right _ hpos).symm
    _ ≤ index c t := Nat.div_le_div_right hle

theorem index_ne (hs : Unwrapped c.sectorSize s)
    (ht : Unwrapped c.sectorSize t) (hbase : c.base s = c.base t) (hne : s ≠ t) :
    index c s ≠ index c t := by
  rcases sectors_apart hs ht hbase hne with hle | hle
  · exact (index_lt_index hlarge hle).ne
  · exact (index_lt_index hlarge hle).ne'

theorem mark_self (bits : BitVec 32) : (bits ||| c.mask s) &&& c.mask s ≠ 0 := by
  have hmask : c.mask s = 1#32 <<< index c s := rfl
  apply (and_mask_ne_zero _ (index_lt hlarge)).mpr
  rw [BitVec.getLsbD_or, hmask, getLsbD_mask (index_lt hlarge)]
  simp

theorem mark_other {bits : BitVec 32} (hbit : (bits ||| c.mask s) &&& c.mask t ≠ 0) :
    bits &&& c.mask t ≠ 0 ∨ index c t = index c s := by
  have hget := (and_mask_ne_zero (bits ||| c.mask s) (index_lt (s := t) hlarge)).mp hbit
  rw [BitVec.getLsbD_or, Bool.or_eq_true] at hget
  rcases hget with hget | hget
  · exact .inl ((and_mask_ne_zero bits (index_lt hlarge)).mpr hget)
  · have hmask : c.mask s = 1#32 <<< index c s := rfl
    rw [hmask, getLsbD_mask (index_lt hlarge)] at hget
    exact .inr (of_decide_eq_true hget).symm

end Layout

variable {c : Cache} {P P' : ℕ → Data → Prop} {page page' : PageInfo} {after : List PageInfo}
  {sector : ℕ} {buffer : Data}

/-- What the page has of its sectors is something that `P` allows. -/
def PageHolds (c : Cache) (P : ℕ → Data → Prop) (page : PageInfo) : Prop :=
  ∀ s, Unwrapped c.sectorSize s → page.baseOffset = c.base s →
    page.presentSectors &&& c.mask s ≠ 0 →
    ∃ d, P s d ∧ ∀ i < c.sectorSize, page.frame (c.offset s + i) = d i

/-- A cache of sectors of a size whose contents `P` allows -/
structure Coherent (size : ℕ) (P : ℕ → Data → Prop) (c : Cache) : Prop where
  ready : Ready c
  large : 512 ≤ c.sectorSize
  size : c.sectorSize = size
  holds : ∀ page ∈ c.pages, PageHolds c P page

structure Stores (P P' : ℕ → Data → Prop) (sector : ℕ) (buffer : Data) : Prop where
  keep : ∀ s d, s ≠ sector → P s d → P' s d
  new : P' sector buffer

theorem PageHolds.store (hlarge : 512 ≤ c.sectorSize) (hsector : Unwrapped c.sectorSize sector)
    (hstores : Stores P P' sector buffer) (h : PageHolds c P page)
    (hbase : page.baseOffset = c.base sector) (hbase' : page'.baseOffset = page.baseOffset)
    (hframe : page'.frame = memcpy page.frame (c.offset sector) c.sectorSize buffer)
    (hbits : ∀ s, page'.presentSectors &&& c.mask s ≠ 0 →
      page.presentSectors &&& c.mask s ≠ 0 ∨ index c s = index c sector) :
    PageHolds c P' page' := by
  intro s hs hsbase hbit
  by_cases hsame : s = sector
  · subst hsame
    refine ⟨buffer, hstores.new, fun i hi => ?_⟩
    rw [hframe]
    exact memcpy_inside hi
  have hbases : c.base s = c.base sector := hsbase.symm.trans (hbase'.trans hbase)
  have hindex := index_ne hlarge hs hsector hbases hsame
  have hold := (hbits s hbit).resolve_right hindex
  obtain ⟨d, hd, hbytes⟩ := h s hs (hbase'.symm.trans hsbase) hold
  refine ⟨d, hstores.keep s d hsame hd, fun i hi => ?_⟩
  have hapart := sectors_apart hs hsector hbases hsame
  rw [hframe, memcpy_outside (by omega)]
  exact hbytes i hi

theorem PageHolds.other (hkeep : ∀ s d, s ≠ sector → P s d → P' s d) (h : PageHolds c P page)
    (hbase : page.baseOffset ≠ c.base sector) : PageHolds c P' page := by
  intro s hs hsbase hbit
  obtain ⟨d, hd, hbytes⟩ := h s hs hsbase hbit
  have hne : s ≠ sector := fun heq => hbase (heq ▸ hsbase)
  exact ⟨d, hkeep s d hne hd, hbytes⟩

theorem holds_put (hholds : ∀ page ∈ c.pages, PageHolds c P page)
    (hothers : ∀ p ∈ c.before sector ++ after, p ∈ c.pages ∧ p.baseOffset ≠ c.base sector)
    (hkeep : ∀ s d, s ≠ sector → P s d → P' s d) (hpage : PageHolds c P' page') :
    ∀ page ∈ (c.put sector page' after).pages, PageHolds (c.put sector page' after) P' page := by
  have hother : ∀ p ∈ c.before sector ++ after, PageHolds c P' p := fun p hp =>
    (hholds p (hothers p hp).1).other hkeep (hothers p hp).2
  intro p hp
  rcases mem_append.mp hp with hp | hp
  · exact hother p (mem_append_left _ hp)
  · rcases mem_cons.mp hp with rfl | hp
    · exact hpage
    · exact hother p (mem_append_right _ hp)

theorem present_put (hfound : iocacheIntGetPage c sector = some (page, after))
    (hbase : page'.baseOffset = page.baseOffset)
    (hbits : page'.presentSectors = page.presentSectors) (s : ℕ) :
    Present (c.put sector page' after) s ↔ Present c s := by
  have hpages := (getPage_found hfound).1
  have hexists : ∀ (p : PageInfo) (q : PageInfo → Prop),
      (∃ x ∈ c.before sector ++ p :: after, q x) ↔ (∃ x ∈ c.before sector ++ after, q x) ∨ q p := by
    intro p q
    simp only [mem_append, mem_cons]
    constructor
    · rintro ⟨x, hx | rfl | hx, hq⟩
      · exact .inl ⟨x, .inl hx, hq⟩
      · exact .inr hq
      · exact .inl ⟨x, .inr hx, hq⟩
    · rintro (⟨x, hx | hx, hq⟩ | hq)
      · exact ⟨x, .inl hx, hq⟩
      · exact ⟨x, .inr (.inr hx), hq⟩
      · exact ⟨p, .inr (.inl rfl), hq⟩
  unfold Present
  rw [hpages]
  simp only [put_base, put_mask]
  rw [show (c.put sector page' after).pages = c.before sector ++ page' :: after from rfl,
    hexists, hexists, hbase, hbits]

section Operations

variable {size : ℕ} {D : Type} {callback : D → ℕ → Data → D} {cacheSize sectorSize : ℤ}

theorem coherent_created
    (h : iocacheCreate sectorSize cacheSize = some c) : Coherent c.sectorSize P c := by
  obtain ⟨hready, hpages, -, -, hlarge, -⟩ := ready_created h
  exact ⟨hready, hlarge, rfl, fun page hpage => by simp [hpages] at hpage⟩

theorem created_dvd {k : ℕ} (hpow : sectorSize = 2 ^ k)
    (h : iocacheCreate sectorSize cacheSize = some c) : c.sectorSize ∣ pageSize := by
  obtain ⟨-, -, hsize, -, -, hsmall⟩ := ready_created h
  have hsector : c.sectorSize = 2 ^ k := by
    have hcast : (c.sectorSize : ℤ) = ((2 ^ k : ℕ) : ℤ) := by
      rw [hsize, hpow]
      simp
    exact_mod_cast hcast
  rw [hsector] at hsmall ⊢
  have hpage : pageSize = 2 ^ 12 := rfl
  exact Nat.pow_dvd_pow 2 ((Nat.pow_le_pow_iff_right (by decide)).mp (hsmall.trans_eq hpage))

variable (h : Coherent size P c) (hs : Fits size sector)
include h hs

theorem Coherent.read (now : ℤ) (buffer : Data) :
    (¬ Present c sector ∧ iocacheRead c now sector buffer = some (0, buffer, c)) ∨
    (Present c sector ∧ ∃ d c', P sector d ∧
      iocacheRead c now sector buffer = some (1, memcpy buffer 0 size d, c') ∧
      Coherent size P c' ∧ ∀ s, Present c' s ↔ Present c s) := by
  obtain rfl := h.size
  rcases iocacheRead_cases h.ready now sector buffer with hmiss |
    ⟨hpresent, page, after, hfound, heq⟩
  · exact .inl hmiss
  right
  refine ⟨hpresent, ?_⟩
  have hbase := (getPage_found hfound).2
  have hmem := mem_of_found hfound
  have hbit := (present_of_found h.ready.sorted hfound).mp hpresent
  obtain ⟨d, hd, hbytes⟩ := h.holds page hmem sector hs.1 hbase hbit
  have hcopy : memcpy buffer 0 c.sectorSize (behind page.frame (c.offset sector)) =
      memcpy buffer 0 c.sectorSize d := memcpy_congr hbytes
  rw [if_pos (inside_of_fits hs), hcopy] at heq
  refine ⟨d, _, hd, heq, ⟨?_, h.large, rfl, ?_⟩, ?_⟩
  · exact h.ready.put hfound rfl rfl
  · exact holds_put h.holds (others_found h.ready hfound) (fun _ _ _ hP => hP) (h.holds page hmem)
  · exact present_put hfound rfl rfl

theorem Coherent.add (hstores : Stores P P' sector buffer) (d : D) (now : ℤ) (fresh : Data) :
    (Present c sector ∧ iocacheAdd callback c d now fresh sector buffer = some (0, c, d)) ∨
    (¬ Present c sector ∧ ∃ c', iocacheAdd callback c d now fresh sector buffer = some (1, c', d) ∧
      Coherent size P' c') := by
  obtain rfl := h.size
  have hinside := inside_of_fits hs
  rcases iocacheAdd_cases h.ready d now fresh sector buffer with
    hpresent | ⟨habsent, page, after, hfound, heq⟩ | ⟨hmissing, heq⟩
  · exact .inl hpresent
  · right
    refine ⟨habsent, ?_⟩
    have hbase := (getPage_found hfound).2
    have hmem := mem_of_found hfound
    rw [if_pos hinside] at heq
    refine ⟨_, heq, ⟨?_, h.large, rfl, ?_⟩⟩
    · exact h.ready.put hfound rfl rfl
    · apply holds_put h.holds (others_found h.ready hfound) hstores.keep
      exact (h.holds page hmem).store h.large hs.1 hstores hbase rfl rfl
        fun s hbit => mark_other h.large hbit
  · right
    have hoff := (getPage_missing h.ready.sorted hmissing).1
    refine ⟨fun ⟨p, hp, hbase, _⟩ => hoff ⟨p, hp, hbase⟩, ?_⟩
    rw [if_pos hinside] at heq
    refine ⟨_, heq, ⟨?_, h.large, rfl, ?_⟩⟩
    · exact h.ready.insert hmissing rfl rfl
    · apply holds_put h.holds (others_missing h.ready hmissing) hstores.keep
      -- the new page has no mark, so there is nothing it would have to hold
      intro s _ _ hbit
      exact absurd (BitVec.zero_and) hbit

theorem Coherent.write (hstores : Stores P P' sector buffer) (d : D) (now : ℤ) :
    (¬ Present c sector ∧ iocacheWrite callback c d now sector buffer = some (0, c, d)) ∨
    (Present c sector ∧ ∃ c',
      iocacheWrite callback c d now sector buffer = some (1, c', callback d sector buffer) ∧
      Coherent size P' c' ∧ ∀ s, Present c' s ↔ Present c s) := by
  obtain rfl := h.size
  rcases iocacheWrite_cases h.ready d now sector buffer with
    hmiss | ⟨hpresent, page, after, hfound, heq⟩
  · exact .inl hmiss
  right
  refine ⟨hpresent, ?_⟩
  have hbase := (getPage_found hfound).2
  have hmem := mem_of_found hfound
  rw [if_pos (inside_of_fits hs)] at heq
  refine ⟨_, heq, ⟨?_, h.large, rfl, ?_⟩, ?_⟩
  · exact h.ready.put hfound rfl rfl
  · apply holds_put h.holds (others_found h.ready hfound) hstores.keep
    exact (h.holds page hmem).store h.large hs.1 hstores hbase rfl rfl fun s hbit => .inl hbit
  · exact present_put hfound rfl rfl

end Operations

/-- A cache with the calls of its `Write` callback, the sectors stored in it, and the calls of
`IOCache_Write` that returned 1 -/
structure System where
  cache : Cache
  passed : List (ℕ × Data)
  stored : List (ℕ × Data)
  written : List (ℕ × Data)

inductive Op where
  | read (now : ℤ) (sector : ℕ) (buffer : Data)
  | add (now : ℤ) (fresh : Data) (sector : ℕ) (buffer : Data)
  | write (now : ℤ) (sector : ℕ) (buffer : Data)
  | flush

def Op.On (p : ℕ → Prop) : Op → Prop
  | .read _ sector _ => p sector
  | .add _ _ sector _ => p sector
  | .write _ sector _ => p sector
  | .flush => True

variable {op : Op}

theorem Op.On.imp {p q : ℕ → Prop} (h : op.On p) (hpq : ∀ s, p s → q s) : op.On q := by
  cases op with
  | read now sector buffer => exact hpq sector h
  | add now fresh sector buffer => exact hpq sector h
  | write now sector buffer => exact hpq sector h
  | flush => trivial

def pass (passed : List (ℕ × Data)) (sector : ℕ) (buffer : Data) : List (ℕ × Data) :=
  passed ++ [(sector, buffer)]

def noteIf (rv : ℤ) (log : List (ℕ × Data)) (sector : ℕ) (buffer : Data) : List (ℕ × Data) :=
  if rv = 1 then log ++ [(sector, buffer)] else log

def step (s : System) : Op → Option System
  | .read now sector buffer =>
    (iocacheRead s.cache now sector buffer).map fun (_, _, cache) => { s with cache }
  | .add now fresh sector buffer =>
    (iocacheAdd pass s.cache s.passed now fresh sector buffer).map fun (rv, cache, passed) =>
      { s with cache, passed, stored := noteIf rv s.stored sector buffer }
  | .write now sector buffer =>
    (iocacheWrite pass s.cache s.passed now sector buffer).map fun (rv, cache, passed) =>
      ⟨cache, passed, noteIf rv s.stored sector buffer, noteIf rv s.written sector buffer⟩
  | .flush => some { s with passed := iocacheFlush pass s.cache s.passed }

def Last (stored : List (ℕ × Data)) (sector : ℕ) (d : Data) : Prop :=
  Since (· = (sector, d)) (·.1 = sector) stored

theorem stores_noted (stored : List (ℕ × Data)) (sector : ℕ) (buffer : Data) :
    Stores (Last stored) (Last (stored ++ [(sector, buffer)])) sector buffer :=
  ⟨fun _ _ hne h => h.snoc (Ne.symm hne), since_last rfl⟩

structure Inv (size : ℕ) (s : System) : Prop where
  coherent : Coherent size (Last s.stored) s.cache
  passed : s.passed = s.written

theorem inv_step {size : ℕ} {s : System} (h : Inv size s) (hop : op.On (Fits size)) :
    ∃ t, step s op = some t ∧ Inv size t := by
  cases op with
  | read now sector buffer =>
    rcases h.coherent.read hop now buffer with ⟨-, heq⟩ | ⟨-, d, c', -, heq, hcoherent, -⟩
    · exact ⟨_, by rw [step, heq]; rfl, ⟨h.coherent, h.passed⟩⟩
    · refine ⟨_, by rw [step, heq]; rfl, ?_⟩
      exact ⟨hcoherent, h.passed⟩
  | add now fresh sector buffer =>
    rcases h.coherent.add hop (stores_noted s.stored sector buffer) s.passed now fresh with
      ⟨-, heq⟩ | ⟨-, c', heq, hcoherent⟩
    · exact ⟨_, by rw [step, heq]; rfl, ⟨h.coherent, h.passed⟩⟩
    · refine ⟨_, by rw [step, heq]; rfl, ?_⟩
      exact ⟨hcoherent, h.passed⟩
  | write now sector buffer =>
    rcases h.coherent.write hop (stores_noted s.stored sector buffer) s.passed now with
      ⟨-, heq⟩ | ⟨-, c', heq, hcoherent, -⟩
    · exact ⟨_, by rw [step, heq]; rfl, ⟨h.coherent, h.passed⟩⟩
    · refine ⟨_, by rw [step, heq]; rfl, ⟨hcoherent, ?_⟩⟩
      rw [pass, h.passed]
      rfl
  | flush =>
    refine ⟨_, rfl, ⟨h.coherent, ?_⟩⟩
    rw [iocacheFlush_ready h.coherent.ready]
    exact h.passed

/-- The cache is coherent over any calls. -/
theorem iocache_coherent {sectorSize cacheSize : ℤ} {k : ℕ} {c : Cache}
    (hpow : sectorSize = 2 ^ k) (hcreate : iocacheCreate sectorSize cacheSize = some c)
    {ops : List Op} (hops : ∀ op ∈ ops, op.On (Unwrapped c.sectorSize)) :
    ∃ t, run step ⟨c, [], [], []⟩ ops = some t ∧ Sorted PageInfo.baseOffset t.cache.pages ∧
      (∀ now sector buffer buffer' c', Unwrapped c.sectorSize sector →
        iocacheRead t.cache now sector buffer = some (1, buffer', c') →
        ∃ d, Last t.stored sector d ∧ buffer' = memcpy buffer 0 c.sectorSize d) ∧
      t.passed = t.written := by
  have hfits : ∀ s, Unwrapped c.sectorSize s → Fits c.sectorSize s := fun s =>
    fits_of_dvd (created_dvd hpow hcreate)
  have hguard : Along step (fun _ op => op.On (Fits c.sectorSize)) ⟨c, [], [], []⟩ ops :=
    along_of_forall fun op hop _ => (hops op hop).imp hfits
  have hstart : Inv c.sectorSize ⟨c, [], [], []⟩ := ⟨coherent_created hcreate, rfl⟩
  obtain ⟨t, hrun, hinv⟩ := run_total (fun _ _ => inv_step) hstart hguard
  refine ⟨t, hrun, hinv.coherent.ready.sorted, ?_, hinv.passed⟩
  intro now sector buffer buffer' c' hs hread
  rcases hinv.coherent.read (hfits sector hs) now buffer with
    ⟨-, heq⟩ | ⟨-, d, c'', hlast, heq, -⟩
  · simp [heq] at hread
  · obtain ⟨rfl, -⟩ : memcpy buffer 0 c.sectorSize d = buffer' ∧ c'' = c' := by
      simpa [heq] using hread
    exact ⟨d, hlast, rfl⟩

def sampleOps : List Op :=
  [.add 0 (fun _ => 0) 8 (fun _ => 1), .add 1 (fun _ => 0) 9 (fun _ => 2),
    .add 2 (fun _ => 0) 9 (fun _ => 3), .write 3 9 (fun _ => 4), .flush]

theorem iocache_coherent_sample :
    ∃ t, run step ⟨⟨512, .writeback, 4, 0, []⟩, [], [], []⟩ sampleOps = some t ∧
      Sorted PageInfo.baseOffset t.cache.pages ∧
      (∀ now sector buffer buffer' c', Unwrapped 512 sector →
        iocacheRead t.cache now sector buffer = some (1, buffer', c') →
        ∃ d, Last t.stored sector d ∧ buffer' = memcpy buffer 0 512 d) ∧
      t.passed = t.written := by
  have hcreate : iocacheCreate 512 4 = some ⟨512, .writeback, 4, 0, []⟩ := rfl
  apply iocache_coherent (k := 9) rfl hcreate
  simp [sampleOps, Op.On, Unwrapped]

end IoCacheCoherence
