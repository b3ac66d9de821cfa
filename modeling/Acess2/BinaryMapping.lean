import Mathlib.Algebra.Order.Ring.Int
import Mathlib.Data.Fintype.Basic

/-! Where a binary is mapped (`Binary_MapIn` in `binary.c`). There are two ways to get a base: the
one that the binary asks for, and a search down from the end of the window; each makes its own
part of the checks, on addresses that wrap. -/
namespace BinaryMapping

open List Nat Option

/-- `tBinarySection`: where it belongs, and how much memory it takes -/
structure Section (w : ℕ) where
  virtual : Fin (2 ^ w)
  memSize : Fin (2 ^ w)

structure Binary (w : ℕ) where
  base : Fin (2 ^ w)
  loadSections : List (Section w)

def pageSize : ℕ := 0x1000

def granuality : ℕ := 0x10000

variable {w : ℕ} (mapped : ℕ → Bool) (b : Binary w) (loadMin loadMax : Fin (2 ^ w))

def checkPages (w : ℕ) (mapped : ℕ → Bool) : ℕ → ℕ → Bool
  | 0, _ => false
  | pages + 1, start =>
    mapped (start / pageSize) || checkPages w mapped pages ((start + pageSize) % 2 ^ w)

/-- `Binary_int_CheckMemFree`: whether a page of the range is mapped -/
def binaryIntCheckMemFree (w : ℕ) (mapped : ℕ → Bool) (start len : ℕ) : Bool :=
  let len := (len + start % pageSize) % 2 ^ w
  let pages := (len + pageSize - 1) % 2 ^ w / pageSize
  checkPages w mapped pages (start / pageSize * pageSize)

def addrAt (base : ℕ) (sect : Section w) : ℕ :=
  (sect.virtual.val + (2 ^ w - b.base.val) + base) % 2 ^ w

def preferred : Bool :=
  b.base.val ≠ 0 ∧ b.loadSections.all fun sect =>
    binaryIntCheckMemFree w mapped sect.virtual sect.memSize = false

def fitsAt (base : ℕ) (sect : Section w) : Bool :=
  (addrAt b base sect + sect.memSize) % 2 ^ w ≤ loadMax.val ∧
    binaryIntCheckMemFree w mapped (addrAt b base sect) sect.memSize = false

/-- `while( base >= LoadMin )` -/
def search : ℕ → ℕ → Option ℕ
  | 0, _ => none
  | fuel + 1, base =>
    if base ≥ loadMin.val then
      if b.loadSections.all (fitsAt mapped b loadMax base) then some base
      else search fuel ((base + 2 ^ w - granuality) % 2 ^ w)
    else some base

/-- `Binary_MapIn`: the base, 0 if there is no space -/
def binaryMapIn (fuel : ℕ) : Option ℕ :=
  let base := if preferred mapped b then some b.base.val
    else search mapped b loadMin loadMax fuel loadMax.val
  base.map fun base => if base < loadMin.val then 0 else base

def Placed (base : ℕ) : Prop :=
  ∀ sect ∈ b.loadSections, ∀ i < sect.memSize.val,
    loadMin.val ≤ addrAt b base sect + i ∧ addrAt b base sect + i ≤ loadMax.val ∧
      mapped ((addrAt b base sect + i) / pageSize) = false

/-- The binary asks for a base, and no page of its sections is found mapped there. -/
def OwnBaseFree : Prop :=
  b.base.val ≠ 0 ∧ ∀ sect ∈ b.loadSections,
    binaryIntCheckMemFree w mapped sect.virtual sect.memSize = false

def Candidate (base : ℕ) : Prop := loadMin.val ≤ base ∧ ∃ k, base + k * granuality = loadMax.val

/-- No page of the sections is found mapped, and they end in the window, in addresses that wrap. -/
def Available (base : ℕ) : Prop :=
  ∀ sect ∈ b.loadSections, (addrAt b base sect + sect.memSize) % 2 ^ w ≤ loadMax.val ∧
    binaryIntCheckMemFree w mapped (addrAt b base sect) sect.memSize = false

def InWindow (base : ℕ) : Prop :=
  ∀ sect ∈ b.loadSections, sect.memSize.val ≠ 0 → loadMin.val ≤ addrAt b base sect ∧
    addrAt b base sect + sect.memSize.val ≤ loadMax.val + 1

/-- The sections are in the window at their own base, or, if that is not free, at the highest
candidate that is available. -/
structure Contained : Prop where
  own : OwnBaseFree mapped b → loadMin.val ≤ b.base.val → InWindow b loadMin loadMax b.base.val
  searched : ¬ OwnBaseFree mapped b → ∀ base, Candidate loadMin loadMax base →
    Available mapped b loadMax base →
    (∀ above, Candidate loadMin loadMax above → base < above →
      ¬ Available mapped b loadMax above) → InWindow b loadMin loadMax base

variable {mapped} {b} {loadMin loadMax} {start len base pages fuel : ℕ} {sect : Section w}

theorem pageSize_pos : 0 < pageSize := by decide

theorem checkPages_free (page : ℕ) (hfits : (page + pages) * pageSize ≤ 2 ^ w)
    (hfree : checkPages w mapped pages (page * pageSize) = false) :
    ∀ i < pages, mapped (page + i) = false := by
  induction pages generalizing page with
  | zero => simp
  | succ pages ih =>
    rw [checkPages, Bool.or_eq_false_iff, Nat.mul_div_cancel _ pageSize_pos] at hfree
    obtain ⟨hfirst, hrest⟩ := hfree
    intro i hi
    cases i with
    | zero => exact hfirst
    | succ i =>
      have hnext : (page * pageSize + pageSize) % 2 ^ w = (page + 1) * pageSize := by
        rw [← Nat.succ_mul]
        apply Nat.mod_eq_of_lt
        refine Nat.lt_of_lt_of_le ?_ hfits
        apply Nat.mul_lt_mul_of_pos_right _ pageSize_pos
        omega
      rw [hnext] at hrest
      have hpage : page + (i + 1) = page + 1 + i := by omega
      rw [hpage]
      apply ih (page + 1) _ hrest i (by omega)
      have hsum : page + 1 + pages = page + (pages + 1) := by omega
      rw [hsum]
      exact hfits

theorem checkMemFree_free (hstart : pageSize ≤ start) (hfits : start + len ≤ 2 ^ w)
    (hfree : binaryIntCheckMemFree w mapped start len = false) :
    ∀ i < len, mapped ((start + i) / pageSize) = false := by
  intro i hi
  rw [pageSize] at hstart ⊢
  simp only [binaryIntCheckMemFree, pageSize] at hfree
  rw [mod_eq_of_lt (a := len + start % 4096) (by omega), mod_eq_of_lt (by omega)] at hfree
  obtain ⟨k, hk⟩ : 2 ^ 12 ∣ 2 ^ w := by
    refine pow_dvd_pow 2 ((Nat.pow_le_pow_iff_right (by decide : 1 < 2)).mp ?_)
    omega
  have hall := checkPages_free (start / 4096) (by rw [pageSize]; omega) hfree
  have hpage : (start + i) / 4096 = start / 4096 + (start % 4096 + i) / 4096 := by omega
  rw [hpage]
  exact hall _ (by omega)

theorem addrAt_base : addrAt b b.base.val sect = sect.virtual.val := by
  have hvirtual := sect.virtual.isLt
  have hsum : sect.virtual.val + (2 ^ w - b.base.val) + b.base.val = sect.virtual.val + 2 ^ w := by
    omega
  rw [addrAt, hsum, add_mod_right, mod_eq_of_lt hvirtual]

theorem preferred_iff : preferred mapped b = true ↔ OwnBaseFree mapped b := by
  simp [preferred, OwnBaseFree]

theorem fits_iff : b.loadSections.all (fitsAt mapped b loadMax base) = true ↔
    Available mapped b loadMax base := by
  simp [fitsAt, Available]

theorem step_down (hlow : granuality ≤ start) (hlt : start < 2 ^ w) :
    (start + 2 ^ w - granuality) % 2 ^ w = start - granuality := by
  rw [Nat.sub_add_comm hlow, add_mod_right, mod_eq_of_lt (by omega)]

theorem search_spec (hmin : granuality ≤ loadMin.val)
    (h : search mapped b loadMin loadMax fuel start = some base) (hbase : loadMin.val ≤ base)
    (hstart : loadMin.val ≤ start → Candidate loadMin loadMax start)
    (habove : ∀ above, Candidate loadMin loadMax above → start < above →
      ¬ Available mapped b loadMax above) :
    Candidate loadMin loadMax base ∧ Available mapped b loadMax base ∧
      ∀ above, Candidate loadMin loadMax above → base < above →
        ¬ Available mapped b loadMax above := by
  induction fuel generalizing start with
  | zero => cases h
  | succ fuel ih =>
    rw [search] at h
    split_ifs at h with hstay hall
    · cases h
      exact ⟨hstart hstay, fits_iff.mp hall, habove⟩
    · obtain ⟨-, k, hk⟩ := hstart hstay
      have hlt := loadMax.isLt
      rw [step_down (by omega) (by omega)] at h
      refine ih h (fun hlow => ⟨hlow, k + 1, by rw [succ_mul]; omega⟩) fun above hcand hlow => ?_
      by_cases hsame : above = start
      · rw [hsame, ← fits_iff]
        exact hall
      · refine habove above hcand ?_
        obtain ⟨-, j, hj⟩ := hcand
        rw [granuality] at *
        omega
    · cases h
      exact absurd hbase hstay

theorem search_finds (hbase : loadMin.val ≤ base) (havail : Available mapped b loadMax base)
    (habove : ∀ above, Candidate loadMin loadMax above → base < above →
      ¬ Available mapped b loadMax above) {k : ℕ} (hstart : base + k * granuality = start)
    (hcand : Candidate loadMin loadMax start) :
    search mapped b loadMin loadMax (k + 1) start = some base := by
  induction k generalizing start with
  | zero =>
    obtain rfl : base = start := by omega
    rw [search, if_pos hbase, if_pos (fits_iff.mpr havail)]
  | succ k ih =>
    have hpos : 0 < granuality := by decide
    rw [succ_mul] at hstart
    have hout : ¬ b.loadSections.all (fitsAt mapped b loadMax start) = true := by
      rw [fits_iff]
      exact habove start hcand (by omega)
    have hlt := loadMax.isLt
    obtain ⟨-, j, hj⟩ := hcand
    rw [search, if_pos (by omega), if_neg hout, step_down (by omega) (by omega)]
    exact ih (by omega) ⟨by omega, j + 1, by rw [succ_mul]; omega⟩

theorem search_returns (hmin : granuality ≤ loadMin.val) (hstart : start < 2 ^ w)
    (hfuel : start / granuality < fuel) :
    ∃ base, search mapped b loadMin loadMax fuel start = some base := by
  induction fuel generalizing start with
  | zero => exact absurd hfuel (not_lt_zero _)
  | succ fuel ih =>
    rw [search]
    split_ifs with hstay hall
    · exact ⟨start, rfl⟩
    · rw [step_down (by omega) hstart]
      apply ih
      · omega
      · rw [granuality] at *
        omega
    · exact ⟨start, rfl⟩

theorem binaryMapIn_returns (hmin : granuality ≤ loadMin.val)
    (hfuel : loadMax.val / granuality < fuel) :
    ∃ base, binaryMapIn mapped b loadMin loadMax fuel = some base := by
  rw [binaryMapIn]
  split_ifs
  · exact ⟨_, rfl⟩
  · obtain ⟨base, hsearch⟩ := search_returns hmin loadMax.isLt hfuel
    rw [hsearch]
    exact ⟨_, rfl⟩

theorem ends_of_placed (h : Placed mapped b loadMin loadMax base) (hsect : sect ∈ b.loadSections)
    (hsize : sect.memSize.val ≠ 0) : loadMin.val ≤ addrAt b base sect ∧
      addrAt b base sect + sect.memSize.val ≤ loadMax.val + 1 := by
  have hfirst := h sect hsect 0 (by omega)
  have hlast := h sect hsect (sect.memSize.val - 1) (by omega)
  omega

theorem placed_of_inWindow (hmin : pageSize ≤ loadMin.val) (h : InWindow b loadMin loadMax base)
    (hfree : ∀ sect ∈ b.loadSections,
      binaryIntCheckMemFree w mapped (addrAt b base sect) sect.memSize = false) :
    Placed mapped b loadMin loadMax base := by
  intro sect hsect i hi
  have hends := h sect hsect (by omega)
  have hlt := loadMax.isLt
  refine ⟨by omega, by omega, ?_⟩
  exact checkMemFree_free (by omega) (by omega) (hfree sect hsect) i hi

/-- `BIN_LOWEST` and `BIN_HIGHEST` of a 32-bit PC -/
def lowest : Fin (2 ^ 32) := 0x200000
def highest : Fin (2 ^ 32) := 0xBBFF0000

def library : Binary 32 := ⟨0, [⟨0, 0x2000⟩, ⟨0x3000, 0x800⟩]⟩

theorem library_returned :
    ∃ base, binaryMapIn (fun _ => true) library lowest highest 0xBC00 = some base :=
  binaryMapIn_returns (by decide) (by decide)

def kernelSection : Binary 32 := ⟨0x400000, [⟨0xC0000000, 0x1000⟩]⟩
def hugeSection : Binary 32 := ⟨0, [⟨0, 0xFFFFF001⟩]⟩
def lowSection : Binary 32 := ⟨0xBBFF1000, [⟨0x3000, 0x1000⟩]⟩

end BinaryMapping
