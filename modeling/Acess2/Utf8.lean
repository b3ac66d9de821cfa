import Mathlib.Algebra.Order.Ring.Int

/-! UTF-8 as the kernel (`lib.c`) and libunicode (`utf-8.c`) read and write it. -/
namespace Utf8

open List UInt32

def invalid : UInt32 := 0xFFFD

def continues (c : UInt8) : Bool := c &&& 0xC0 = 0x80

def lower (c : UInt8) : UInt32 := (c &&& 0x3F).toUInt32

/-- `ReadUTF8`: the number of bytes it says it has used, and `*Val` -/
def readUTF8 (str : ℕ → UInt8) : ℕ × UInt32 :=
  let c := str 0
  if c &&& 0x80 = 0 then (1, c.toUInt32)
  -- the middle of a sequence
  else if continues c then (1, invalid)
  else if c &&& 0xE0 = 0xC0 then
    if !continues (str 1) then (2, invalid)
    else (2, (c &&& 0x1F).toUInt32 <<< 6 ||| lower (str 1))
  else if c &&& 0xF0 = 0xE0 then
    if !continues (str 1) then (2, invalid)
    else if !continues (str 2) then (3, invalid)
    else (3, (c &&& 0x0F).toUInt32 <<< 12 ||| lower (str 1) <<< 6 ||| lower (str 2))
  else if c &&& 0xF8 = 0xF0 then
    if !continues (str 1) then (2, invalid)
    else if !continues (str 2) then (3, invalid)
    else if !continues (str 3) then (4, invalid)
    else (4, (c &&& 0x07).toUInt32 <<< 18 ||| lower (str 1) <<< 12 ||| lower (str 2) <<< 6 |||
      lower (str 3))
  else (4, invalid)

/-- `ReadUTF8` of libunicode, for a `Val` that is not `NULL` -/
def Libunicode.readUTF8 (str : ℕ → UInt8) : ℤ × UInt32 :=
  let c := str 0
  if continues c then (1, invalid)
  else if c &&& 0x80 = 0 then (1, c.toUInt32)
  else if c &&& 0xE0 = 0xC0 then
    if !continues (str 1) then (-1, invalid)
    else (2, (c &&& 0x1F).toUInt32 <<< 6 ||| lower (str 1))
  else if c &&& 0xF0 = 0xE0 then
    if !continues (str 1) then (-1, invalid)
    else if !continues (str 2) then (-1, invalid)
    else (3, (c &&& 0x0F).toUInt32 <<< 12 ||| lower (str 1) <<< 6 ||| lower (str 2))
  else if c &&& 0xF8 = 0xF0 then
    if !continues (str 1) then (-1, invalid)
    else if !continues (str 2) then (-1, invalid)
    else if !continues (str 3) then (-1, invalid)
    else (4, (c &&& 0x07).toUInt32 <<< 18 ||| lower (str 1) <<< 12 ||| lower (str 2) <<< 6 |||
      lower (str 3))
  else (4, invalid)

def byte (mark bits : UInt32) : UInt8 := (mark ||| bits).toUInt8

/-- `WriteUTF8`, the same in the kernel and in libunicode: the bytes that go to `str` unless it is
`NULL`, and the number that is returned -/
def writeUTF8 (str : Bool) (val : UInt32) : List UInt8 × ℕ :=
  let put (bytes : List UInt8) := if str then bytes else []
  if val < 128 then (put [val.toUInt8], 1)
  else if val < 0x8000 then (put [byte 0xC0 (val >>> 6), byte 0x80 (val &&& 0x3F)], 2)
  else if val < 0x10000 then
    (put [byte 0xE0 (val >>> 12), byte 0x80 (val >>> 6 &&& 0x3F), byte 0x80 (val &&& 0x3F)], 3)
  else if val < 0x110000 then
    (put [byte 0xF0 (val >>> 18), byte 0x80 (val >>> 12 &&& 0x3F), byte 0x80 (val >>> 6 &&& 0x3F),
      byte 0x80 (val &&& 0x3F)], 4)
  else ([], 0)

def writeAll (vals : List UInt32) : List UInt8 := vals.flatMap fun v => (writeUTF8 true v).1

/-- So many calls of a `ReadUTF8`, each behind what the last one has used -/
def readAll (read : (ℕ → UInt8) → ℤ × UInt32) : ℕ → List UInt8 → List (ℤ × UInt32)
  | 0, _ => []
  | n + 1, str =>
    let r := read fun i => str.getD i 0
    r :: readAll read n (str.drop r.1.toNat)

def kernelRead (str : ℕ → UInt8) : ℤ × UInt32 := ((readUTF8 str).1, (readUTF8 str).2)

theorem continued_ofNat : ∀ n < 64, let c := byte 0x80 (.ofNat n)
    continues c ∧ lower c = .ofNat n := by
  decide

theorem continued (w : UInt32) : let c := byte 0x80 (w &&& 0x3F)
    continues c ∧ lower c = w &&& 0x3F := by
  have hlt : (w &&& 0x3F).toNat < 64 := by
    rw [UInt32.toNat_and]
    exact Nat.and_lt_two_pow _ (by decide : _ < 2 ^ 6)
  have hc := continued_ofNat _ hlt
  rwa [UInt32.ofNat_toNat] at hc

theorem six_bits : ∀ j (h : j < 32), (63#32)[j] = decide (j < 6) := by decide

/-- The bits that are taken apart are put together again. -/
theorem join (v : UInt32) : v >>> 6 <<< 6 ||| v &&& 0x3F = v ∧
    v >>> 12 <<< 12 ||| (v >>> 6 &&& 0x3F) <<< 6 = v >>> 6 <<< 6 ∧
    v >>> 18 <<< 18 ||| (v >>> 12 &&& 0x3F) <<< 12 = v >>> 12 <<< 12 := by
  simp only [← UInt32.toBitVec_inj]
  have hback {k i : ℕ} (h : ¬i < k) : k + (i - k) = i := by omega
  refine ⟨?_, ?_, ?_⟩ <;> ext i hi
  · by_cases i < 6 <;> simp [six_bits, *]
  · by_cases i < 6 <;> by_cases i < 12 <;> simp [six_bits, *] <;> omega
  · by_cases i < 12 <;> by_cases i < 18 <;> simp [six_bits, *] <;> omega

theorem toNat_shiftRight (v : UInt32) : (v >>> 6).toNat = v.toNat / 2 ^ 6 ∧
    (v >>> 12).toNat = v.toNat / 2 ^ 12 ∧ (v >>> 18).toNat = v.toNat / 2 ^ 18 := by
  simp [UInt32.toNat_shiftRight, Nat.shiftRight_eq_div_pow]

theorem lead_one : ∀ n < 128, let c := (ofNat n).toUInt8
    continues c = false ∧ c &&& 0x80 = 0 ∧ c.toUInt32 = .ofNat n := by
  decide

theorem lead_two : ∀ n < 32, let c := byte 0xC0 (.ofNat n)
    continues c = false ∧ ¬c &&& 0x80 = 0 ∧ c &&& 0xE0 = 0xC0 ∧
      (c &&& 0x1F).toUInt32 = .ofNat n := by
  decide

theorem lead_three : ∀ n < 16, let c := byte 0xE0 (.ofNat n)
    continues c = false ∧ ¬c &&& 0x80 = 0 ∧ ¬c &&& 0xE0 = 0xC0 ∧ c &&& 0xF0 = 0xE0 ∧
      (c &&& 0x0F).toUInt32 = .ofNat n := by
  decide

theorem lead_four : ∀ n < 8, let c := byte 0xF0 (.ofNat n)
    continues c = false ∧ ¬c &&& 0x80 = 0 ∧ ¬c &&& 0xE0 = 0xC0 ∧ ¬c &&& 0xF0 = 0xE0 ∧
      c &&& 0xF8 = 0xF0 ∧ (c &&& 0x07).toUInt32 = .ofNat n := by
  decide

theorem read_written {v : UInt32} (hv : v < 0x110000) (hgap : v < 0x800 ∨ 0x8000 ≤ v)
    (rest : List UInt8) : let w := writeUTF8 true v
    let str := fun i => (w.1 ++ rest).getD i 0
    kernelRead str = ((w.2 : ℤ), v) ∧ Libunicode.readUTF8 str = ((w.2 : ℤ), v) ∧
      w.1.length = w.2 ∧ (writeUTF8 false v).2 = w.2 := by
  obtain ⟨hsix, htwelve, heighteen⟩ := toNat_shiftRight v
  simp only [lt_iff_toNat_lt, le_iff_toNat_le, reduceToNat] at hv hgap
  simp only [writeUTF8, Bool.false_eq_true, if_true, if_false, lt_iff_toNat_lt,
    reduceToNat]
  split_ifs with hone htwo hthree
  · have hlead := lead_one _ hone
    simp only [UInt32.ofNat_toNat] at hlead
    simp [kernelRead, readUTF8, Libunicode.readUTF8, -UInt8.toUInt32_and, hlead]
  · have hlead := lead_two (v >>> 6).toNat (by omega)
    simp only [UInt32.ofNat_toNat] at hlead
    simp [kernelRead, readUTF8, Libunicode.readUTF8, -UInt8.toUInt32_and, hlead, continued, join]
  · have hlead := lead_three (v >>> 12).toNat (by omega)
    simp only [UInt32.ofNat_toNat] at hlead
    simp [kernelRead, readUTF8, Libunicode.readUTF8, -UInt8.toUInt32_and, hlead, continued, join]
  · have hlead := lead_four (v >>> 18).toNat (by omega)
    simp only [UInt32.ofNat_toNat] at hlead
    simp [kernelRead, readUTF8, Libunicode.readUTF8, -UInt8.toUInt32_and, hlead, continued, join]

theorem readAll_written {read : (ℕ → UInt8) → ℤ × UInt32} {vals : List UInt32}
    (h : ∀ v ∈ vals, ∀ rest, let w := writeUTF8 true v
      read (fun i => (w.1 ++ rest).getD i 0) = ((w.2 : ℤ), v) ∧ w.1.length = w.2)
    (rest : List UInt8) :
    readAll read vals.length (writeAll vals ++ rest) =
      vals.map fun v => (((writeUTF8 true v).2 : ℤ), v) := by
  induction vals with
  | nil => rfl
  | cons v vals ih =>
    obtain ⟨hv, hvals⟩ := forall_mem_cons.mp h
    obtain ⟨hread, hlength⟩ := hv (writeAll vals ++ rest)
    have hcons : writeAll (v :: vals) = (writeUTF8 true v).1 ++ writeAll vals := rfl
    rw [hcons, append_assoc, length_cons, readAll, hread, map_cons,
      ← ih hvals, Int.toNat_natCast, ← hlength, drop_left]

/-- What is read from two bytes is below `0x800`. -/
theorem read_two {str : ℕ → UInt8} {v : UInt32} (hnext : continues (str 1))
    (h : kernelRead str = (2, v)) : v < 0x800 := by
  simp only [kernelRead, readUTF8, hnext, Bool.not_true, Bool.false_eq_true, if_false] at h
  split_ifs at h
  all_goals
    obtain ⟨hused, rfl⟩ := Prod.mk.inj h
    try omega
  have hlead : (str 0 &&& 0x1F).toNat < 2 ^ 5 := by
    rw [UInt8.toNat_and]
    exact Nat.and_lt_two_pow _ (by decide)
  have hlower : (str 1 &&& 0x3F).toNat < 2 ^ 6 := by
    rw [UInt8.toNat_and]
    exact Nat.and_lt_two_pow _ (by decide)
  simp only [lower, lt_iff_toNat_lt, UInt32.toNat_or, UInt32.toNat_shiftLeft, UInt8.toNat_toUInt32]
  refine Nat.or_lt_two_pow (n := 11) ?_ (by omega)
  refine lt_of_le_of_lt (Nat.mod_le _ _) ?_
  rw [Nat.shiftLeft_eq, show toNat 6 % 32 = 6 from rfl]
  omega

/-- Every code point is read as it was written by both functions, with as many bytes, and
`WriteUTF8` says how many without writing. -/
def ReadBack (vals : List UInt32) (rest : List UInt8) : Prop :=
  readAll kernelRead vals.length (writeAll vals ++ rest) =
      vals.map (fun v => (((writeUTF8 true v).2 : ℤ), v)) ∧
    readAll Libunicode.readUTF8 vals.length (writeAll vals ++ rest) =
      vals.map (fun v => (((writeUTF8 true v).2 : ℤ), v)) ∧
    ∀ v ∈ vals, (writeUTF8 true v).1.length = (writeUTF8 true v).2 ∧
      (writeUTF8 false v).2 = (writeUTF8 true v).2

theorem gap_not_read {v : UInt32} (hlow : 0x800 ≤ v) (hhigh : v < 0x8000) (rest : List UInt8) :
    kernelRead (fun i => ((writeUTF8 true v).1 ++ rest).getD i 0) ≠
      (((writeUTF8 true v).2 : ℤ), v) := by
  intro hread
  have hwrite : writeUTF8 true v = ([byte 0xC0 (v >>> 6), byte 0x80 (v &&& 0x3F)], 2) := by
    have hone : ¬ v < 128 := UInt32.not_lt.mpr (UInt32.le_trans (by decide) hlow)
    simp [writeUTF8, hone, hhigh]
  rw [hwrite] at hread
  exact absurd (read_two (continued v).1 hread) (UInt32.not_lt.mpr hlow)

theorem readAll_gap {vals : List UInt32} (hvals : ∀ v ∈ vals, v < 0x110000) {rest : List UInt8}
    (h : readAll kernelRead vals.length (writeAll vals ++ rest) =
      vals.map fun v => (((writeUTF8 true v).2 : ℤ), v)) :
    ∀ v ∈ vals, v < 0x800 ∨ 0x8000 ≤ v := by
  induction vals with
  | nil => exact fun v hv => (by cases hv)
  | cons v vals ih =>
    obtain ⟨hv, hvals⟩ := forall_mem_cons.mp hvals
    have hcons : writeAll (v :: vals) = (writeUTF8 true v).1 ++ writeAll vals := rfl
    rw [hcons, append_assoc, length_cons, readAll, map_cons, cons.injEq] at h
    obtain ⟨hread, hrest⟩ := h
    have hgap : v < 0x800 ∨ 0x8000 ≤ v := by
      by_contra hgap
      obtain ⟨hlow, hhigh⟩ := not_or.mp hgap
      exact gap_not_read (UInt32.not_lt.mp hlow) (UInt32.not_le.mp hhigh) _ hread
    obtain ⟨-, -, hlength, -⟩ := read_written hv hgap (writeAll vals ++ rest)
    rw [hread, Int.toNat_natCast, ← hlength, drop_left] at hrest
    exact forall_mem_cons.mpr ⟨hgap, ih hvals hrest⟩

/-- A list is read back exactly if it has no code point of `[0x800, 0x8000)`, for which `WriteUTF8`
takes two bytes in place of three. -/
theorem code_points_read_back (vals : List UInt32) (hvals : ∀ v ∈ vals, v < 0x110000)
    (rest : List UInt8) : ReadBack vals rest ↔ ∀ v ∈ vals, v < 0x800 ∨ 0x8000 ≤ v := by
  constructor
  · exact fun hback => readAll_gap hvals hback.1
  · intro hgap
    have hread := fun v hv => read_written (hvals v hv) (hgap v hv)
    refine ⟨readAll_written (fun v hv rest => ?_) rest, readAll_written (fun v hv rest => ?_) rest,
      fun v hv => (hread v hv []).2.2⟩
    · exact ⟨(hread v hv rest).1, (hread v hv rest).2.2.1⟩
    · exact ⟨(hread v hv rest).2.1, (hread v hv rest).2.2.1⟩

theorem euro_ne_read_back : let euro : UInt32 := 0x20AC
    let str := (writeUTF8 true euro).1
    readAll kernelRead 1 str = [(2, 0xAC)] ∧ readAll Libunicode.readUTF8 1 str = [(2, 0xAC)] := by
  decide

theorem latin_read_back : readAll kernelRead 2 [0xC3, 0xA9, 0xEF, 0xBF, 0xBC, 0] =
    [(2, 0xE9), (3, 0xFFFC)] :=
  ((code_points_read_back [0xE9, 0xFFFC] (by simp) [0]).mpr (by simp)).1

end Utf8
