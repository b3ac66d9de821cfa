import Acess2.KernelHeapModel
import Mathlib.Algebra.BigOperators.Group.List.Basic
import Mathlib.Data.List.Chain

/-! # Blocks and tilings

The abstract heap is a list of blocks; `Tiles` says that the bytes between two addresses
spell exactly this list, heads and feet. The block list is what every operation is
specified against; the layout facts are collected once, in the form the arithmetic
needs them. -/
namespace KernelHeapBlocks

open ByteMemory List Option Nat KernelHeapModel

@[ext]
structure Block where
  size : ℕ
  used : Bool
  deriving DecidableEq

def magicOf (used : Bool) : ℕ := if used then magicUsed else magicFree

@[simp] theorem magicOf_true : magicOf true = magicUsed := rfl
@[simp] theorem magicOf_false : magicOf false = magicFree := rfl

theorem magicUsed_ne_free : magicUsed ≠ magicFree := by decide

theorem layout_facts (L : Layout) :
    L.footBytes = 2 * L.wordBytes ∧ L.minSize = 8 * L.wordBytes ∧ 4 ≤ L.wordBytes ∧
    L.wordBytes ≤ L.validSizeOfs ∧ L.validSizeOfs + 4 ≤ L.fileOfs ∧
    L.fileOfs + L.wordBytes ≤ L.lineOfs ∧ L.lineOfs + 4 ≤ L.magicOfs ∧
    L.magicOfs + L.wordBytes ≤ L.timeOfs ∧ L.timeOfs + 8 ≤ L.headBytes ∧
    L.magicOfs + L.wordBytes + 2 * L.wordBytes ≤ 8 * L.wordBytes ∧
    4096 ≤ L.kheapBase ∧ L.kheapBase < L.kheapMax ∧
    L.kheapMax + (L.kheapMax - L.kheapBase) + 4096 ≤ L.modulus :=
  ⟨rfl, rfl, by have := L.word_cases; omega, L.size_end, L.validSize_end, L.file_end,
    L.line_end, L.magic_end, L.time_end, L.magic_foot, L.base_pos, L.base_lt_max, L.above_max⟩

variable {L : Layout} {a b sz hi lo x e : ℕ} {m m' : Memory} {mp : ℕ → Bool} {bs : List Block}
  {s : Heap}

theorem add_eq (h : a + b < L.modulus) : L.add a b = a + b :=
  mod_eq_of_lt h

theorem sub_eq (hb : b ≤ a) (ha : a < L.modulus) : L.sub a b = a - b := by
  have hbm : b % L.modulus = b := mod_eq_of_lt (by omega)
  have hsum : a + (L.modulus - b) = a - b + L.modulus := by omega
  rw [Layout.sub, hbm, hsum, add_mod_right, mod_eq_of_lt (by omega)]

theorem magics_lt (L : Layout) :
    magicFree < L.modulus ∧ magicUsed < L.modulus ∧ magicFoot < L.modulus := by
  unfold Layout.modulus magicFree magicUsed magicFoot
  rcases L.word_cases with h | h <;> rw [h] <;> decide

theorem minSize_dvd_page (L : Layout) : L.minSize ∣ 4096 := by
  unfold Layout.minSize
  rcases L.word_cases with h | h <;> rw [h] <;> decide

theorem layout_core (L : Layout) :
    L.footBytes = 2 * L.wordBytes ∧ L.minSize = 8 * L.wordBytes ∧ 4 ≤ L.wordBytes ∧
    L.wordBytes ≤ L.magicOfs ∧ L.magicOfs + 3 * L.wordBytes ≤ 8 * L.wordBytes := by
  have hL := layout_facts L
  omega

theorem magic_in_head (L : Layout) : L.magicOfs + L.wordBytes ≤ L.headBytes := by
  have h1 := L.magic_end
  have h2 := L.time_end
  omega

theorem load_store_word {v : ℕ} (h : v < L.modulus) :
    load (store m a L.wordBytes v) a L.wordBytes = v := load_store_eq h

/-! The words of a block, in address order: with the whole head of a used one, or with what the
head of a free one has. -/

theorem usedWords (a : ℕ) (hroom : L.headBytes + L.footBytes ≤ sz) :
    ∃ f, f + L.footBytes = a + sz ∧ a + sz - L.footBytes = f ∧
      Apart [(a, 0), (a, L.wordBytes), (a + L.validSizeOfs, 4), (a + L.fileOfs, L.wordBytes),
        (a + L.lineOfs, 4), (a + L.magicOfs, L.wordBytes), (a + L.timeOfs, 8),
        (a + L.headBytes, 0), (f, 0), (f, L.wordBytes), (f + L.wordBytes, L.wordBytes),
        (a + sz, 0)] := by
  have hL := layout_facts L
  refine ⟨a + sz - L.footBytes, by omega, rfl, ?_⟩
  repeat' first | apply apart_single | apply apart_cons_cons
  all_goals (simp only; omega)

theorem freeWords (a : ℕ) (hmin : L.minSize ≤ sz) :
    ∃ f, f + L.footBytes = a + sz ∧ a + sz - L.footBytes = f ∧
      Apart [(a, 0), (a, L.wordBytes), (a + L.validSizeOfs, 4), (a + L.fileOfs, L.wordBytes),
        (a + L.lineOfs, 4), (a + L.magicOfs, L.wordBytes), (f, L.wordBytes),
        (f + L.wordBytes, L.wordBytes), (a + sz, 0)] := by
  have hL := layout_facts L
  refine ⟨a + sz - L.footBytes, by omega, rfl, ?_⟩
  repeat' first | apply apart_single | apply apart_cons_cons
  all_goals (simp only; omega)

theorem foot_eq {f : ℕ} (hf : f + L.footBytes = a + sz) (hmod : a + sz < L.modulus) :
    L.sub (L.add a sz) L.footBytes = f ∧ sz < L.modulus ∧ a < L.modulus := by
  refine ⟨?_, by omega, by omega⟩
  rw [add_eq hmod, sub_eq (by omega) hmod]
  omega

def Covered (mp : ℕ → Bool) (lo hi : ℕ) : Prop := ∀ x, lo ≤ x → x < hi → mp (x / 4096) = true

theorem access_covered (hc : Covered mp lo hi) (st en : ℕ) :
    (∀ m a k, lo ≤ a → a + k ≤ hi → Heap.read ⟨m, mp, st, en⟩ a k = some (load m a k)) ∧
    ∀ m a k v, lo ≤ a → a + k ≤ hi →
      Heap.write ⟨m, mp, st, en⟩ a k v = some ⟨store m a k v, mp, st, en⟩ := by
  have hacc : ∀ m a k, lo ≤ a → a + k ≤ hi → Heap.Accessible ⟨m, mp, st, en⟩ a k :=
    fun m a k hl hu i hi => hc (a + i) (by omega) (by omega)
  constructor
  · intro m a k hl hu
    simp only [Heap.read, hacc m a k hl hu, if_true]
  · intro m a k v hl hu
    simp only [Heap.write, hacc m a k hl hu, if_true]

theorem store_frame (hx : x < lo ∨ hi ≤ x) :
    ∀ (m : Memory) a k v, lo ≤ a → a + k ≤ hi → store m a k v x = m x :=
  fun _ _ _ _ hl hu => store_outside (by omega)

theorem store_frame_two {mid mid' : ℕ} (hx : x < lo ∨ mid ≤ x ∧ x < mid' ∨ hi ≤ x)
    (hm : lo ≤ mid ∧ mid ≤ mid' ∧ mid' ≤ hi) :
    ∀ (m : Memory) a k v, lo ≤ a ∧ a + k ≤ mid ∨ mid' ≤ a ∧ a + k ≤ hi → store m a k v x = m x :=
  fun _ _ _ _ h => store_outside (by omega)

theorem bind_congr_left {α β : Type} {x y : Option α} {f : α → Option β} (h : x = y) :
    x.bind f = y.bind f := by rw [h]

/-- A block at `a`: of a positive multiple of MIN_SIZE, with its magics and the link back -/
@[mk_iff]
structure BlockAt (L : Layout) (m : Memory) (a : ℕ) (b : Block) : Prop where
  pos : 0 < b.size
  aligned : L.minSize ∣ b.size
  size_eq : load m a L.wordBytes = b.size
  magic_eq : load m (a + L.magicOfs) L.wordBytes = magicOf b.used
  foot_magic : load m (a + b.size - L.footBytes) L.wordBytes = magicFoot
  foot_head : load m (a + b.size - L.footBytes + L.wordBytes) L.wordBytes = a

instance (L : Layout) (m : Memory) (a : ℕ) (b : Block) : Decidable (BlockAt L m a b) :=
  decidable_of_iff' _ (blockAt_iff L m a b)

theorem BlockAt.min_le {b : Block} (h : BlockAt L m a b) :
    L.minSize ≤ b.size := le_of_dvd h.pos h.aligned

theorem BlockAt.congr {b : Block}
    (h : BlockAt L m a b) (heq : ∀ x, a ≤ x → x < a + b.size → m' x = m x) : BlockAt L m' a b := by
  have hL := layout_facts L
  have hmin := h.min_le
  have move : ∀ c, a ≤ c → c + L.wordBytes ≤ a + b.size →
      load m' c L.wordBytes = load m c L.wordBytes := fun c hl hu =>
    load_congr fun x h1 h2 => heq x (by omega) (by omega)
  exact ⟨h.pos, h.aligned, (move a le_rfl (by omega)).trans h.size_eq,
    (move _ (by omega) (by omega)).trans h.magic_eq,
    (move _ (by omega) (by omega)).trans h.foot_magic,
    (move _ (by omega) (by omega)).trans h.foot_head⟩

def span (bs : List Block) : ℕ := (bs.map Block.size).sum

@[simp] theorem span_nil : span [] = 0 := rfl
@[simp] theorem span_cons (b : Block) (bs : List Block) : span (b :: bs) = b.size + span bs := by
  simp [span]
@[simp] theorem span_append (xs ys : List Block) : span (xs ++ ys) = span xs + span ys := by
  simp [span]

/-- Following the sizes from `a` passes exactly the blocks `bs` and ends at `e`. -/
def Tiles (L : Layout) (m : Memory) : ℕ → List Block → ℕ → Prop
  | a, [], e => a = e
  | a, b :: bs, e => BlockAt L m a b ∧ Tiles L m (a + b.size) bs e

instance decidableTiles (L : Layout) (m : Memory) : ∀ a bs e, Decidable (Tiles L m a bs e)
  | a, [], e => inferInstanceAs (Decidable (a = e))
  | a, b :: bs, e =>
    have := decidableTiles L m (a + b.size) bs e
    inferInstanceAs (Decidable (BlockAt L m a b ∧ Tiles L m (a + b.size) bs e))

theorem tiles_end (h : Tiles L m a bs e) : e = a + span bs := by
  induction bs generalizing a with
  | nil => simpa using Eq.symm h
  | cons b bs ih =>
    have := ih h.2
    rw [span_cons]
    omega

theorem tiles_append {xs ys : List Block} : Tiles L m a (xs ++ ys) e ↔
      Tiles L m a xs (a + span xs) ∧ Tiles L m (a + span xs) ys e := by
  induction xs generalizing a with
  | nil => simp [Tiles]
  | cons b xs ih =>
    simp only [cons_append, Tiles, span_cons, ih, ← add_assoc, and_assoc]

theorem tiles_congr (h : Tiles L m a bs e) (heq : ∀ x, a ≤ x → x < e → m' x = m x) :
    Tiles L m' a bs e := by
  induction bs generalizing a with
  | nil => exact h
  | cons b bs ih =>
    have hend := tiles_end h.2
    exact ⟨h.1.congr fun x hl hu => heq x hl (by omega), ih h.2 fun x hl hu => heq x (by omega) hu⟩

def Coalesced (bs : List Block) : Prop := bs.IsChain fun b c => b.used = true ∨ c.used = true

/-- The gHeapStart..gHeapEnd region of `s` is mapped and exactly tiled by `bs`. -/
structure WellFormed (L : Layout) (s : Heap) (bs : List Block) : Prop where
  start_eq : s.heapStart = L.kheapBase
  end_le : s.heapEnd ≤ L.kheapMax
  end_page : s.heapEnd % 4096 = 0
  mapped : ∀ x, s.heapStart ≤ x → x < s.heapEnd → s.mapped (x / 4096) = true
  tiles : Tiles L s.mem s.heapStart bs s.heapEnd
  room : ∀ b ∈ bs, b.used = true → L.headBytes + L.footBytes ≤ b.size

theorem WellFormed.accessible
    (h : WellFormed L s bs) {k : ℕ} (hl : s.heapStart ≤ a) (hu : a + k ≤ s.heapEnd) :
    s.Accessible a k := fun i hi => h.mapped (a + i) (by omega) (by omega)

theorem WellFormed.splice {pre mid mid' post : List Block}
    (h : WellFormed L s (pre ++ (mid ++ post)))
    (hframe : ∀ x, x < s.heapStart + span pre ∨ s.heapStart + span pre + span mid ≤ x →
      m' x = s.mem x)
    (hmid : Tiles L m' (s.heapStart + span pre) mid' (s.heapStart + span pre + span mid))
    (hroom : ∀ b ∈ mid', b.used = true → L.headBytes + L.footBytes ≤ b.size) :
    WellFormed L { s with mem := m' } (pre ++ (mid' ++ post)) := by
  obtain ⟨hpre, hrest⟩ := tiles_append.mp h.tiles
  obtain ⟨-, hpost⟩ := tiles_append.mp hrest
  have hspan := tiles_end hmid
  refine ⟨h.start_eq, h.end_le, h.end_page, h.mapped, ?_, ?_⟩
  · refine tiles_append.mpr ⟨tiles_congr hpre fun x _ hx => hframe x (.inl hx), ?_⟩
    refine tiles_append.mpr ⟨hspan ▸ hmid, ?_⟩
    rw [← hspan]
    exact tiles_congr hpost fun x hx _ => hframe x (.inr hx)
  · intro b hb hu
    rcases mem_append.mp hb with hb | hb
    · exact h.room b (mem_append_left _ hb) hu
    · rcases mem_append.mp hb with hb | hb
      · exact hroom b hb hu
      · exact h.room b (mem_append_right _ (mem_append_right _ hb)) hu

/-- The blocks `mid` give way to one block that fills their place. -/
theorem WellFormed.replace (mid : List Block) {pre post : List Block} {b : Block}
    (h : WellFormed L s (pre ++ (mid ++ post))) (hb : BlockAt L m' (s.heapStart + span pre) b)
    (hsize : span mid = b.size)
    (hframe : ∀ x, x < s.heapStart + span pre ∨ s.heapStart + span pre + b.size ≤ x →
      m' x = s.mem x)
    (hroom : b.used = true → L.headBytes + L.footBytes ≤ b.size) :
    WellFormed L { s with mem := m' } (pre ++ b :: post) := by
  have hmid : Tiles L m' (s.heapStart + span pre) [b] (s.heapStart + span pre + span mid) :=
    ⟨hb, by simp [Tiles, hsize]⟩
  exact h.splice (hsize ▸ hframe) hmid (by simpa using hroom)

theorem WellFormed.block {pre post : List Block} {b : Block}
    (h : WellFormed L s (pre ++ b :: post)) :
    BlockAt L s.mem (s.heapStart + span pre) b ∧
      s.heapEnd = s.heapStart + span pre + b.size + span post ∧
      s.heapEnd + (L.kheapMax - L.kheapBase) + 4096 ≤ L.modulus ∧ 4096 ≤ s.heapStart := by
  have hend := tiles_end h.tiles
  rw [span_append, span_cons] at hend
  have hL := layout_facts L
  have hle := h.end_le
  have hst := h.start_eq
  exact ⟨(tiles_append.mp h.tiles).2.1, by omega, by omega, by omega⟩

namespace WellFormed

variable {pre post : List Block} {b : Block}

theorem used_room (h : WellFormed L s (pre ++ ⟨sz, true⟩ :: post)) :
    L.headBytes + L.footBytes ≤ sz :=
  h.room ⟨sz, true⟩ (mem_append_right _ mem_cons_self) rfl

variable (h : WellFormed L s (pre ++ b :: post))
include h

theorem read_eq {c : ℕ}
    (hl : s.heapStart + span pre ≤ c) (hu : c + L.wordBytes ≤ s.heapStart + span pre + b.size) :
    s.read c L.wordBytes = some (load s.mem c L.wordBytes) := by
  obtain ⟨-, hend, -, -⟩ := h.block
  rw [Heap.read, if_pos (h.accessible (by omega) (by omega))]

theorem headSize_eq : headSize L s (s.heapStart + span pre) = some b.size := by
  have hL := layout_core L
  have hbm := h.block.1.min_le
  rw [headSize, h.read_eq le_rfl (by omega), h.block.1.size_eq]

theorem headMagic_eq : headMagic L s (s.heapStart + span pre) = some (magicOf b.used) := by
  have hL := layout_core L
  have hbm := h.block.1.min_le
  rw [headMagic, h.read_eq (by omega) (by omega), h.block.1.magic_eq]

theorem heapNextHead_eq :
    heapNextHead L s (s.heapStart + span pre) = some (s.heapStart + span pre + b.size) := by
  obtain ⟨-, hend, hmod, -⟩ := h.block
  rw [heapNextHead, h.headSize_eq, bind_eq_bind, bind_some, add_eq (by omega), Option.pure_def]

theorem heapThisFoot_eq : heapThisFoot L s (s.heapStart + span pre) =
      some (s.heapStart + span pre + b.size - L.footBytes) := by
  obtain ⟨hb, hend, hmod, -⟩ := h.block
  have hL := layout_core L
  have hbm := hb.min_le
  rw [heapThisFoot, h.headSize_eq, bind_eq_bind, bind_some, add_eq (by omega),
    sub_eq (by omega) (by omega), Option.pure_def]

theorem footMagic_eq :
    footMagic L s (s.heapStart + span pre + b.size - L.footBytes) = some magicFoot := by
  have hL := layout_core L
  have hbm := h.block.1.min_le
  rw [footMagic, h.read_eq (by omega) (by omega), h.block.1.foot_magic]

theorem footHead_eq : footHead L s (s.heapStart + span pre + b.size - L.footBytes) =
      some (s.heapStart + span pre) := by
  have hL := layout_core L
  have hbm := h.block.1.min_le
  rw [footHead, h.read_eq (by omega) (by omega), h.block.1.foot_head]

end WellFormed

theorem first_foot (h : WellFormed L s bs) (hlt : s.heapStart < s.heapEnd) :
    load s.mem (s.heapStart + load s.mem s.heapStart L.wordBytes - L.footBytes) L.wordBytes =
      magicFoot := by
  cases bs with
  | nil => exact absurd h.tiles (Nat.ne_of_lt hlt)
  | cons b bs =>
    rw [h.tiles.1.size_eq]
    exact h.tiles.1.foot_magic

end KernelHeapBlocks
