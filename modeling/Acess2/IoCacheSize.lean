import Acess2.IoCacheCoherence

/-! How much the cache of disk sectors holds.
`CacheUsed` never moves, so every page that a sector was added to stays on the list, however many
there are. The sector a page was made for is not marked, so it can not be read back. -/
namespace IoCacheSize

open BufferCopies GuardedRuns IoCache IoCacheCoherence List Option

def Op.added : Op → Option ℕ
  | .add _ _ sector _ => some sector
  | _ => none

def addedBy (ops : List Op) : List ℕ := ops.filterMap Op.added

def basesOf (c : Cache) (sectors : List ℕ) : Finset ℕ := (sectors.map c.base).toFinset

/-- The cache made as `c`, after these sectors were added -/
structure Filled (c : Cache) (added : List ℕ) (s : System) : Prop where
  ready : Ready s.cache
  sectorSize : s.cache.sectorSize = c.sectorSize
  cacheSize : s.cache.cacheSize = c.cacheSize
  bases : (s.cache.pages.map PageInfo.baseOffset).toFinset = basesOf c added

section Steps

variable {c : Cache} {added : List ℕ} {s t : System} {sector : ℕ} {page page' : PageInfo}
  {after : List PageInfo}

variable (h : Filled c added s)
include h

theorem Filled.base (sector : ℕ) : s.cache.base sector = c.base sector := by
  rw [Cache.base, Cache.address, h.sectorSize]
  rfl

theorem Filled.onList (sector : ℕ) :
    OnList s.cache sector ↔ ∃ a ∈ added, c.base a = c.base sector := by
  have hmem : c.base sector ∈ (s.cache.pages.map PageInfo.baseOffset).toFinset ↔
      c.base sector ∈ basesOf c added := by rw [h.bases]
  simpa [OnList, h.base, basesOf] using hmem

theorem Filled.length : s.cache.pages.length = (basesOf c added).card := by
  have hnodup : (s.cache.pages.map PageInfo.baseOffset).Nodup :=
    pairwise_map.mpr (h.ready.sorted.imp ne_of_lt)
  rw [← h.bases, toFinset_card_of_nodup hnodup, length_map]

omit h in
theorem bases_put (hfound : iocacheIntGetPage c sector = some (page, after))
    (hbase : page'.baseOffset = page.baseOffset) :
    (c.put sector page' after).pages.map PageInfo.baseOffset = c.pages.map PageInfo.baseOffset := by
  rw [(getPage_found hfound).1]
  simp [Cache.put, hbase]

omit h in
theorem bases_insert (hbase : page.baseOffset = c.base sector) :
    ((c.put sector page (c.rest sector)).pages.map PageInfo.baseOffset).toFinset =
      insert (c.base sector) (c.pages.map PageInfo.baseOffset).toFinset := by
  have hpages := pages_eq c sector
  ext b
  rw [hpages]
  simp [Cache.put, hbase]

omit h in
theorem basesOf_snoc (c : Cache) (added : List ℕ) (sector : ℕ) :
    basesOf c (added ++ [sector]) = insert (c.base sector) (basesOf c added) := by
  ext b
  simp [basesOf, eq_comm]

theorem Filled.same (hready : Ready t.cache) (hsector : t.cache.sectorSize = s.cache.sectorSize)
    (hcache : t.cache.cacheSize = s.cache.cacheSize)
    (hbases : t.cache.pages.map PageInfo.baseOffset = s.cache.pages.map PageInfo.baseOffset) :
    Filled c added t := by
  refine ⟨hready, hsector.trans h.sectorSize, hcache.trans h.cacheSize, ?_⟩
  rw [hbases]
  exact h.bases

theorem Filled.again (hmem : OnList s.cache sector) : Filled c (added ++ [sector]) s := by
  refine ⟨h.ready, h.sectorSize, h.cacheSize, ?_⟩
  obtain ⟨a, ha, hbase⟩ := (h.onList sector).mp hmem
  have hin : c.base sector ∈ basesOf c added := by
    simp only [basesOf, List.mem_toFinset, List.mem_map]
    exact ⟨a, ha, hbase⟩
  rw [basesOf_snoc, Finset.insert_eq_self.mpr hin]
  exact h.bases

omit h in
theorem Present.onList (h : Present c sector) : OnList c sector := by
  obtain ⟨page, hpage, hbase, -⟩ := h
  exact ⟨page, hpage, hbase⟩

theorem filled_step {op : Op} (hstep : step s op = some t) :
    Filled c (added ++ (Op.added op).toList) t := by
  cases op with
  | read now sector buffer =>
    obtain ⟨⟨rv, b, cache⟩, hread, rfl⟩ := map_eq_some_iff.mp hstep
    simp only [Op.added, toList_none, append_nil]
    rcases iocacheRead_cases h.ready now sector buffer with
      ⟨-, heq⟩ | ⟨-, page, after, hfound, heq⟩
    · cases heq.symm.trans hread
      exact h
    · rw [heq] at hread
      split_ifs at hread
      cases hread
      exact h.same (h.ready.put hfound rfl rfl) rfl rfl (bases_put hfound rfl)
  | add now fresh sector buffer =>
    obtain ⟨⟨rv, cache, passed⟩, hadd, rfl⟩ := map_eq_some_iff.mp hstep
    simp only [Op.added, toList_some]
    rcases iocacheAdd_cases h.ready s.passed now fresh sector buffer with
      ⟨hpresent, heq⟩ | ⟨-, page, after, hfound, heq⟩ | ⟨hmissing, heq⟩
    · cases heq.symm.trans hadd
      exact (h.again (Present.onList hpresent)).same h.ready rfl rfl rfl
    · rw [heq] at hadd
      split_ifs at hadd
      cases hadd
      exact (h.again (onList_of_found hfound)).same (h.ready.put hfound rfl rfl) rfl rfl
        (bases_put hfound rfl)
    · rw [heq] at hadd
      split_ifs at hadd
      cases hadd
      refine ⟨h.ready.insert hmissing rfl rfl, h.sectorSize, h.cacheSize, ?_⟩
      rw [bases_insert rfl, h.bases, h.base, basesOf_snoc]
  | write now sector buffer =>
    obtain ⟨⟨rv, cache, passed⟩, hwrite, rfl⟩ := map_eq_some_iff.mp hstep
    simp only [Op.added, toList_none, append_nil]
    rcases iocacheWrite_cases h.ready s.passed now sector buffer with
      ⟨-, heq⟩ | ⟨-, page, after, hfound, heq⟩
    · cases heq.symm.trans hwrite
      exact h.same h.ready rfl rfl rfl
    · rw [heq] at hwrite
      split_ifs at hwrite
      cases hwrite
      exact h.same (h.ready.put hfound rfl rfl) rfl rfl (bases_put hfound rfl)
  | flush =>
    cases hstep
    simp only [Op.added, toList_none, append_nil]
    exact h.same h.ready rfl rfl rfl

omit h in
theorem addedBy_cons (op : Op) (ops : List Op) :
    addedBy (op :: ops) = (Op.added op).toList ++ addedBy ops := by
  rw [addedBy, filterMap_cons]
  cases Op.added op <;> rfl

theorem filled_run {ops : List Op} (hrun : run step s ops = some t) :
    Filled c (added ++ addedBy ops) t := by
  induction ops generalizing s added with
  | nil =>
    cases hrun
    simpa [addedBy] using h
  | cons op ops ih =>
    obtain ⟨u, hu, hrun⟩ := bind_eq_some_iff.mp hrun
    rw [addedBy_cons, ← append_assoc]
    exact ih (filled_step h hu) hrun

end Steps

variable {c c' : Cache} {sector : ℕ} {buffer : Data} {D : Type} {callback : D → ℕ → Data → D}
  {d d' : D} {after : List PageInfo} {page : PageInfo}

theorem read_marked {frame : Data} (h : Ready c)
    (hinside : c.Inside sector) (hbase : page.baseOffset = c.base sector)
    (hmark : page.presentSectors &&& c.mask sector ≠ 0)
    (hframe : page.frame = memcpy frame (c.offset sector) c.sectorSize buffer) (now : ℤ)
    (dest : Data) :
    ∃ c'', iocacheRead (c.put sector page after) now sector dest =
      some (1, memcpy dest 0 c.sectorSize buffer, c'') := by
  have hcopy : memcpy dest 0 c.sectorSize (behind page.frame (c.offset sector)) =
      memcpy dest 0 c.sectorSize buffer := by
    apply memcpy_congr
    intro i hi
    rw [behind, hframe]
    exact memcpy_inside hi
  rw [iocacheRead_put h.size hbase, if_pos hmark, if_pos hinside, hcopy]
  exact ⟨_, rfl⟩

theorem read_unmarked (h : Ready c)
    (hbase : page.baseOffset = c.base sector) (hmarks : page.presentSectors = 0) (now : ℤ)
    (dest : Data) :
    iocacheRead (c.put sector page after) now sector dest =
      some (0, dest, c.put sector page after) := by
  have hmark : ¬ page.presentSectors &&& c.mask sector ≠ 0 := by
    rw [hmarks]
    exact not_not.mpr BitVec.zero_and
  rw [iocacheRead_put h.size hbase, if_neg hmark]

theorem read_added (h : Ready c) (hlarge : 512 ≤ c.sectorSize) {now : ℤ} {fresh : Data}
    (hadd : iocacheAdd callback c d now fresh sector buffer = some (1, c', d')) (later : ℤ)
    (dest : Data) :
    (∃ c'', iocacheRead c' later sector dest =
      some (1, memcpy dest 0 c.sectorSize buffer, c'')) ↔ OnList c sector := by
  rcases iocacheAdd_cases h d now fresh sector buffer with
    ⟨-, heq⟩ | ⟨-, page, after, hfound, heq⟩ | ⟨hmissing, heq⟩
  · cases heq.symm.trans hadd
  · rw [heq] at hadd
    split_ifs at hadd with hinside
    cases hadd
    refine iff_of_true ?_ (onList_of_found hfound)
    refine read_marked h hinside ?_ (mark_self hlarge _) rfl later dest
    exact (getPage_found hfound).2
  rw [heq] at hadd
  split_ifs at hadd
  cases hadd
  refine iff_of_false ?_ (getPage_missing h.sorted hmissing).1
  rintro ⟨c'', hread⟩
  rw [read_unmarked h rfl rfl] at hread
  cases hread

/-- As many pages are on the list as have had sectors added, and a sector is read back exactly if
its page has had one added before. -/
theorem iocache_caches {sectorSize cacheSize : ℤ} {ops : List Op} {t : System}
    (hcreate : iocacheCreate sectorSize cacheSize = some c)
    (hrun : run step ⟨c, [], [], []⟩ ops = some t) :
    ((t.cache.pages.length : ℤ) ≤ cacheSize ↔ ((basesOf c (addedBy ops)).card : ℤ) ≤ cacheSize) ∧
    ∀ now fresh sector buffer c' passed,
      iocacheAdd pass t.cache t.passed now fresh sector buffer = some (1, c', passed) →
      ∀ later dest, (∃ c'', iocacheRead c' later sector dest =
          some (1, memcpy dest 0 c.sectorSize buffer, c'')) ↔
        ∃ a ∈ addedBy ops, c.base a = c.base sector := by
  obtain ⟨hready, hpages, hsize, hcache, hlarge, -⟩ := ready_created hcreate
  have hstart : Filled c [] ⟨c, [], [], []⟩ := ⟨hready, rfl, rfl, by simp [hpages, basesOf]⟩
  have hfilled := filled_run hstart hrun
  rw [nil_append] at hfilled
  refine ⟨by rw [hfilled.length], ?_⟩
  intro now fresh sector buffer c' passed hadd later dest
  rw [← hfilled.onList, ← hfilled.sectorSize]
  exact read_added hfilled.ready (hfilled.sectorSize ▸ hlarge) hadd later dest

def onePage : Cache := ⟨512, .writeback, 1, 0, []⟩

def sameOps : List Op := [.add 0 (fun _ => 0) 8 (fun _ => 1)]

theorem iocache_caches_same_page : ∃ t, run step ⟨onePage, [], [], []⟩ sameOps = some t ∧
    ((t.cache.pages.length : ℤ) ≤ 1 ↔ ((basesOf onePage (addedBy sameOps)).card : ℤ) ≤ 1) ∧
    ∀ now fresh sector buffer c' passed,
      iocacheAdd pass t.cache t.passed now fresh sector buffer = some (1, c', passed) →
      ∀ later dest, (∃ c'', iocacheRead c' later sector dest =
          some (1, memcpy dest 0 512 buffer, c'')) ↔
        ∃ a ∈ addedBy sameOps, onePage.base a = onePage.base sector := by
  have hcreate : iocacheCreate 512 1 = some onePage := rfl
  refine ⟨_, rfl, ?_⟩
  exact iocache_caches hcreate rfl

/-- The first sector that is added to a cache of one page is not read back, and a sector of
another page makes a second one. -/
theorem iocache_first_sector_lost : iocacheCreate 512 1 = some onePage ∧
    (iocacheAdd pass onePage [] 0 (fun _ => 0) 8 (fun _ => 1)).bind (fun (rv, c, _) =>
      (iocacheRead c 1 8 (fun _ => 0)).map fun (rv', _, _) => (rv, rv')) = some (1, 0) ∧
    (run step ⟨onePage, [], [], []⟩ [.add 0 (fun _ => 0) 8 (fun _ => 1),
      .add 1 (fun _ => 0) 16 (fun _ => 2)]).map (fun t => t.cache.pages.length) = some 2 := by
  refine ⟨rfl, rfl, rfl⟩

end IoCacheSize
