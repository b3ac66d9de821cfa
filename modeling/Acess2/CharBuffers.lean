import Mathlib.Data.List.Basic

/-! Strings that end with a null character, in a buffer that is edited in place.
A loop that copies characters within one buffer moves a string down to a lower or equal
position; copying up over the end of the string it reads, it never stops. -/
namespace CharBuffers

open Function List

abbrev Buffer := ℕ → Char

def nul : Char := Char.ofNat 0

abbrev Text := { s : List Char // nul ∉ s }

def emptyText : Text := ⟨[], by decide⟩

/-- The characters `s` stand in the buffer from `p` on. -/
def Holds (b : Buffer) : ℕ → List Char → Prop
  | _, [] => True
  | p, c :: s => b p = c ∧ Holds b (p + 1) s

/-- Writing characters from another place (`memcpy`, and the loop of `strcpy`). -/
def write (b : Buffer) : ℕ → List Char → Buffer
  | _, [] => b
  | p, c :: s => write (update b p c) (p + 1) s

def strcpy (b : Buffer) (p : ℕ) (s : List Char) : Buffer := write b p (s ++ [nul])

def readString (b : Buffer) : ℕ → ℕ → Option (List Char)
  | 0, _ => none
  | fuel + 1, p => if b p = nul then some [] else (readString b fuel (p + 1)).map (b p :: ·)

/-- `while( !stop(*src) ) *dst++ = *src++;` within the buffer: where `dst` ends. -/
def moveUntil (stop : Char → Bool) : ℕ → Buffer → ℕ → ℕ → Option (ℕ × Buffer)
  | 0, _, _, _ => none
  | fuel + 1, b, src, dst =>
    if stop (b src) then some (dst, b)
    else moveUntil stop fuel (update b dst (b src)) (src + 1) (dst + 1)

variable {b b' : Buffer} {p src dst fuel : ℕ} {s t : List Char} {c : Char} {stop : Char → Bool}

theorem Holds.append_iff : Holds b p (s ++ t) ↔ Holds b p s ∧ Holds b (p + s.length) t := by
  induction s generalizing p with
  | nil => simp [Holds]
  | cons c s ih => simp [Holds, ih, and_assoc, Nat.add_assoc, Nat.add_comm 1]

theorem Holds.congr (h : Holds b p s) (hsame : ∀ i, p ≤ i → i < p + s.length → b' i = b i) :
    Holds b' p s := by
  induction s generalizing p with
  | nil => trivial
  | cons c s ih =>
    refine ⟨(hsame p (Nat.le_refl _) (by simp)).trans h.1, ih h.2 fun i hi hlt =>
      hsame i (by omega) ?_⟩
    simp only [length_cons]
    omega

theorem Holds.set (h : Holds b p s) (i : ℕ) (c : Char) :
    Holds (update b (p + i) c) p (s.set i c) := by
  induction s generalizing p i with
  | nil => trivial
  | cons d s ih =>
    cases i with
    | zero =>
      refine ⟨update_self .., h.2.congr fun j hj _ => update_of_ne (by omega) _ _⟩
    | succ i =>
      refine ⟨?_, ?_⟩
      · rw [update_of_ne (by omega)]
        exact h.1
      · rw [← Nat.add_assoc, Nat.add_right_comm]
        exact ih h.2 i

theorem write_outside {i : ℕ} (h : i < p ∨ p + s.length ≤ i) : write b p s i = b i := by
  induction s generalizing b p with
  | nil => rfl
  | cons c s ih =>
    simp only [length_cons] at h
    rw [write, ih (by omega), update_of_ne (by omega)]

theorem holds_write : Holds (write b p s) p s := by
  induction s generalizing b p with
  | nil => trivial
  | cons c s ih => exact ⟨by rw [write, write_outside (by omega), update_self], ih⟩

theorem holds_strcpy : Holds (strcpy b p s) p (s ++ [nul]) := holds_write

theorem strcpy_outside {i : ℕ} (h : i < p ∨ p + s.length < i) : strcpy b p s i = b i :=
  write_outside (by simp only [length_append, length_singleton]; omega)

theorem readString_eq (h : Holds b p (s ++ [nul])) (hs : nul ∉ s) (hf : s.length < fuel) :
    readString b fuel p = some s := by
  induction s generalizing p fuel with
  | nil =>
    obtain ⟨m, rfl⟩ := Nat.exists_eq_add_of_lt hf
    simp [readString, h.1]
  | cons c s ih =>
    cases fuel with
    | zero => exact absurd hf (by simp)
    | succ fuel =>
      have hc : b p ≠ nul := fun hc => hs (by simp [← h.1, hc])
      rw [readString, if_neg hc, ih h.2 (fun hmem => hs (mem_cons_of_mem c hmem))
        (by simpa using hf), h.1]
      rfl

theorem moveUntil_down (h : Holds b src (s ++ [c])) (hs : ∀ d ∈ s, stop d = false)
    (hc : stop c = true) (hle : dst ≤ src) (hf : s.length < fuel) :
    ∃ b', moveUntil stop fuel b src dst = some (dst + s.length, b') ∧ Holds b' dst s ∧
      ∀ i, i < dst ∨ dst + s.length ≤ i → b' i = b i := by
  induction s generalizing b src dst fuel with
  | nil =>
    obtain ⟨m, rfl⟩ := Nat.exists_eq_add_of_lt hf
    exact ⟨b, by simp [moveUntil, h.1, hc], trivial, fun _ _ => rfl⟩
  | cons d s ih =>
    cases fuel with
    | zero => exact absurd hf (by simp)
    | succ fuel =>
      have hd : stop (b src) = false := by rw [h.1]; exact hs d (by simp)
      -- the write is behind everything that is still to be read
      have hrest : Holds (update b dst (b src)) (src + 1) (s ++ [c]) :=
        h.2.congr fun i hi _ => update_of_ne (by omega) _ _
      obtain ⟨b', hmove, hheld, hsame⟩ := ih hrest (fun e he => hs e (mem_cons_of_mem d he))
        (by omega : dst + 1 ≤ src + 1) (by simpa using hf)
      refine ⟨b', ?_, ⟨?_, hheld⟩, fun i hi => ?_⟩
      · simp only [moveUntil, hd, Bool.false_eq_true, if_false, length_cons]
        rw [hmove, Nat.add_assoc, Nat.add_comm 1]
      · rw [hsame dst (by omega), update_self, h.1]
      · simp only [length_cons] at hi
        rw [hsame i (by omega), update_of_ne (by omega)]

end CharBuffers
