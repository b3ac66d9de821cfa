import Acess2.CharBuffers

/-! `VFS_GetAbsPath` (`vfs/open.c`): the path is put behind the chroot and the working
directory in one buffer, cut into components, and rebuilt in place from those that are kept. -/
namespace VfsPaths

open CharBuffers Function List Option

def maxPathSlashes : ℕ := 256

/-- `chrootLen`: the length without a trailing slash -/
def chrootLen (chroot : List Char) : ℕ :=
  if chroot.getLast? = some '/' then chroot.length - 1 else chroot.length

def cwdOf (cwd : Option Text) : List Char := cwd.elim ['/'] Subtype.val

def place (ret : Buffer) (chrootLen : ℕ) (cwd path : List Char) : Buffer :=
  if path.head? = some '/' then strcpy ret chrootLen path
  else
    let ret := strcpy ret chrootLen cwd
    -- without the chroot's length
    let ret := update ret cwd.length '/'
    strcpy ret (chrootLen + cwd.length + 1) path

def placeSize (chrootLen : ℕ) (cwd path : List Char) : ℕ :=
  if path.head? = some '/' then chrootLen + path.length + 1
  else chrootLen + cwd.length + 1 + path.length + 1

/-- The loop "Parse Path": where the components start. The inner `none` is for too many. -/
def parseComps (ret : Buffer) : ℕ → ℕ → List ℕ → Option (Option (List ℕ))
  | 0, _, _ => none
  | fuel + 1, tmpStr, comps =>
    if ret tmpStr = nul then some (some comps)
    else if ret tmpStr = '/' then
      let comps := comps ++ [tmpStr + 1]
      if comps.length = maxPathSlashes then some none
      else parseComps ret fuel (tmpStr + 1) comps
    else parseComps ret fuel (tmpStr + 1) comps

def cleanup (ret : Buffer) (kept : List ℕ) (tmpStr : ℕ) : List ℕ :=
  let ends := fun i => ret (tmpStr + i) = '/' ∨ ret (tmpStr + i) = nul
  if ret tmpStr = '.' ∧ ret (tmpStr + 1) = '.' ∧ ends 2 then kept.dropLast
  else if ret tmpStr = '.' ∧ ends 1 then kept
  else if ends 0 then kept
  else kept ++ [tmpStr]

def nameEnds (c : Char) : Bool := c = nul ∨ c = '/'

def buildPath (fuel : ℕ) : List ℕ → ℕ → Buffer → Option (ℕ × Buffer)
  | [], iPos2, ret => some (iPos2, ret)
  | tmpStr :: comps, iPos2, ret => do
    let (iPos2, ret) ← moveUntil nameEnds fuel ret tmpStr iPos2
    buildPath fuel comps (iPos2 + 1) (update ret iPos2 '/')

def finish (size : ℕ) (root : List Char) (iPos2 : ℕ) (ret : Buffer) : Option (Option (List Char)) :=
  let ret := update ret (if iPos2 > 1 then iPos2 - 1 else iPos2) nul
  let ret := if root.length ≠ 0 then write ret 0 root else ret
  (readString ret (size + 1) 0).map some

/-- The rest of `VFS_GetAbsPath` once the path is in the buffer, behind the space for `root`. -/
def rebuild (size : ℕ) (root : List Char) (ret : Buffer) : Option (Option (List Char)) := do
  match ← parseComps ret size (root.length + 1) [root.length + 1] with
  | none => some none
  | some comps =>
    let kept := comps.foldl (cleanup ret) []
    let (iPos2, ret) ← buildPath size kept (root.length + 1) (update ret 0 '/')
    finish size root iPos2 ret

/-- `VFS_GetAbsPath`; `none` is a null pointer dereference, `some none` the result `NULL`. -/
def vfsGetAbsPath (malloc : ℕ → Option Buffer) (chroot cwd : Option Text) (path : Text) :
    Option (Option (List Char)) := do
  if path.val.head? = some '$' then
    match malloc (path.val.length + 1) with
    | none => some none
    | some ret => (readString (strcpy ret 0 path.val) (path.val.length + 1) 0).map some
  else
    let chroot := chroot.elim [] Subtype.val
    let root := chroot.take (chrootLen chroot)
    let size := placeSize root.length (cwdOf cwd) path.val
    match malloc size with
    | none => if path.val.head? = some '/' then some none else none
    | some ret => rebuild size root (place ret root.length (cwdOf cwd) path.val)

/-! ### What the result should be -/

def trimmed (chroot : Option Text) : List Char :=
  let root := chroot.elim [] Subtype.val
  if root.getLast? = some '/' then root.dropLast else root

/-- Dropping empty components and `.`, and letting `..` remove the component before it. -/
def keep (kept : List (List Char)) (c : List Char) : List (List Char) :=
  if c = ['.', '.'] then kept.dropLast else if c = ['.'] ∨ c = [] then kept else kept ++ [c]

def joined (cs : List (List Char)) : List Char := cs.flatMap ('/' :: ·)

def lexical (s : List Char) : List Char := joined ((s.splitOn '/').foldl keep [])

def whole (cwd : Option Text) (path : Text) : List Char :=
  if path.val.head? = some '/' then path.val else cwdOf cwd ++ '/' :: path.val

def absPath (chroot cwd : Option Text) (path : Text) : List Char :=
  if trimmed chroot = [] ∧ lexical (whole cwd path) = [] then ['/']
  else trimmed chroot ++ lexical (whole cwd path)

variable {b b' : Buffer} {p w fuel : ℕ} {t : List Char}

/-- A component stands at `p`, with a slash or the end of the string behind it. -/
structure IsName (b : Buffer) (p : ℕ) (c : List Char) : Prop where
  plain : ∀ d ∈ c, nameEnds d = false
  there : ∃ e, nameEnds e = true ∧ Holds b p (c ++ [e])

def Laid (b : Buffer) : ℕ → List (ℕ × List Char) → Prop
  | _, [] => True
  | w, (p, c) :: rest => w ≤ p ∧ IsName b p c ∧ Laid b (p + c.length + 1) rest

def named (p : ℕ) : List Char → List (ℕ × List Char)
  | [] => [(p, [])]
  | d :: t =>
    if d = '/' then (p, []) :: named (p + 1) t
    else
      match named (p + 1) t with
      | [] => []
      | (_, c) :: rest => (p, d :: c) :: rest

theorem named_head (p : ℕ) (t : List Char) : ∃ c rest, named p t = (p, c) :: rest := by
  induction t generalizing p with
  | nil => exact ⟨[], [], rfl⟩
  | cons d t ih =>
    by_cases hd : d = '/'
    · exact ⟨[], named (p + 1) t, by simp [named, hd]⟩
    · obtain ⟨c, rest, heq⟩ := ih (p + 1)
      exact ⟨d :: c, rest, by simp [named, hd, heq]⟩

theorem named_snd (p : ℕ) (t : List Char) : (named p t).map Prod.snd = t.splitOn '/' := by
  induction t generalizing p with
  | nil => simp [named]
  | cons d t ih =>
    rw [splitOn_cons_eq_if_modifyHead, ← ih (p + 1)]
    by_cases hd : d = '/'
    · simp [named, hd]
    · obtain ⟨c, rest, heq⟩ := named_head (p + 1) t
      simp [named, hd, heq]

theorem named_laid (h : Holds b p (t ++ [nul])) (ht : nul ∉ t) : Laid b p (named p t) := by
  induction t generalizing p with
  | nil => exact ⟨Nat.le_refl _, ⟨by simp, nul, by simp [nameEnds], h⟩, trivial⟩
  | cons d t ih =>
    have hd' : d ≠ nul := fun hd => ht (by simp [hd])
    have hrest := ih h.2 fun hmem => ht (mem_cons_of_mem d hmem)
    by_cases hd : d = '/'
    · simp only [named, hd, if_true]
      exact ⟨Nat.le_refl _, ⟨by simp, '/', by simp [nameEnds], hd ▸ h.1, trivial⟩, hrest⟩
    obtain ⟨c, rest, heq⟩ := named_head (p + 1) t
    rw [heq] at hrest
    obtain ⟨-, ⟨hplain, e, he, hheld⟩, hlaid⟩ := hrest
    simp only [named, hd, if_false, heq]
    refine ⟨Nat.le_refl _, ⟨?_, e, he, h.1, hheld⟩, ?_⟩
    · intro x hx
      rcases mem_cons.mp hx with rfl | hx
      · simp [nameEnds, hd, hd']
      · exact hplain x hx
    · rwa [length_cons, ← Nat.add_assoc, Nat.add_right_comm p]

variable {xs ys kept : List (ℕ × List Char)} {root : List Char} {size : ℕ}

theorem Laid.mono (h : Laid b w xs) (hle : p ≤ w) : Laid b p xs := by
  cases xs with
  | nil => trivial
  | cons x xs => exact ⟨Nat.le_trans hle h.1, h.2⟩

theorem Laid.sublist (h : Laid b w xs) (hs : ys.Sublist xs) : Laid b w ys := by
  induction hs generalizing w with
  | slnil => trivial
  | cons x _ ih => exact ih (h.2.2.mono (by have := h.1; omega))
  | cons_cons x _ ih => exact ⟨h.1, h.2.1, ih h.2.2⟩

theorem Laid.congr (h : Laid b w xs) (hsame : ∀ i, w ≤ i → b' i = b i) : Laid b' w xs := by
  induction xs generalizing w with
  | nil => trivial
  | cons x xs ih =>
    obtain ⟨hle, ⟨hplain, e, he, hheld⟩, hrest⟩ := h
    refine ⟨hle, ⟨hplain, e, he, hheld.congr fun i hi _ => hsame i (by omega)⟩, ?_⟩
    exact ih hrest fun i hi => hsame i (by omega)

theorem parseComps_eq (acc : List ℕ) (h : Holds b p (t ++ [nul])) (ht : nul ∉ t)
    (hcount : acc.length + t.count '/' < maxPathSlashes) (hf : t.length < fuel) :
    parseComps b fuel p acc = some (some (acc ++ (named p t).tail.map Prod.fst)) := by
  induction t generalizing p acc fuel with
  | nil =>
    obtain ⟨m, rfl⟩ := Nat.exists_eq_add_of_lt hf
    simp [parseComps, h.1, named]
  | cons d t ih =>
    cases fuel with
    | zero => exact absurd hf (by simp)
    | succ fuel =>
      have hd' : b p ≠ nul := fun hd => ht (by simp [← h.1, hd])
      have ht' : nul ∉ t := fun hmem => ht (mem_cons_of_mem d hmem)
      have hf' : t.length < fuel := by simpa using hf
      rw [parseComps, if_neg hd']
      by_cases hd : d = '/'
      · subst hd
        simp only [count_cons_self] at hcount
        have hlen : (acc ++ [p + 1]).length ≠ maxPathSlashes := by
          simp only [length_append, length_singleton]
          omega
        rw [if_pos h.1]
        simp only [hlen, if_false]
        rw [ih _ h.2 ht' (by simp only [length_append, length_singleton]; omega) hf']
        obtain ⟨c, rest, heq⟩ := named_head (p + 1) t
        simp [named, heq]
      · rw [if_neg (by rw [h.1]; exact hd), ih _ h.2 ht' (by simpa [hd] using hcount) hf']
        obtain ⟨c, rest, heq⟩ := named_head (p + 1) t
        simp [named, hd, heq]

def keepNamed (kept : List (ℕ × List Char)) (x : ℕ × List Char) : List (ℕ × List Char) :=
  if x.2 = ['.', '.'] then kept.dropLast
  else if x.2 = ['.'] ∨ x.2 = [] then kept else kept ++ [x]

theorem cleanup_eq {c : List Char} (h : IsName b p c) :
    cleanup b (kept.map Prod.fst) p = (keepNamed kept (p, c)).map Prod.fst := by
  obtain ⟨hplain, e, he, hheld⟩ := h
  have he' : e = '/' ∨ e = nul := by simpa [nameEnds, or_comm] using he
  have hne : e ≠ '.' := by
    rintro rfl
    simp [nameEnds, nul] at he
  have hend : ∀ d ∈ c, ¬ (d = '/' ∨ d = nul) := by
    intro d hd
    simpa [nameEnds, or_comm] using hplain d hd
  -- the three characters that are looked at
  rcases c with _ | ⟨d₀, _ | ⟨d₁, _ | ⟨d₂, c⟩⟩⟩
  · simp [cleanup, keepNamed, show b p = e from hheld.1, he', hne]
  · have h₀ : b p = d₀ := hheld.1
    have h₁ : b (p + 1) = e := hheld.2.1
    have hd₀ := hend d₀ (by simp)
    by_cases hdot : d₀ = '.' <;> simp [cleanup, keepNamed, h₀, h₁, he', hne, hd₀, hdot]
  · have h₀ : b p = d₀ := hheld.1
    have h₁ : b (p + 1) = d₁ := hheld.2.1
    have h₂ : b (p + 2) = e := hheld.2.2.1
    have hd₀ := hend d₀ (by simp)
    have hd₁ := hend d₁ (by simp)
    have hnul : '.' ≠ nul := by decide
    by_cases hdot : d₀ = '.' <;> by_cases hdot' : d₁ = '.' <;>
      simp [cleanup, keepNamed, h₀, h₁, h₂, he', hd₀, hd₁, hdot, hdot', hnul]
  · have h₀ : b p = d₀ := hheld.1
    have h₁ : b (p + 1) = d₁ := hheld.2.1
    have h₂ : b (p + 2) = d₂ := hheld.2.2.1
    have hd₀ := hend d₀ (by simp)
    have hd₁ := hend d₁ (by simp)
    have hd₂ := hend d₂ (by simp)
    simp [cleanup, keepNamed, h₀, h₁, h₂, hd₀, hd₁, hd₂]

theorem Laid.isName (h : Laid b w xs) : ∀ x ∈ xs, IsName b x.1 x.2 := by
  induction xs generalizing w with
  | nil => simp
  | cons x xs ih => exact forall_mem_cons.mpr ⟨h.2.1, ih h.2.2⟩

theorem cleanup_fold (kept : List (ℕ × List Char)) (h : ∀ x ∈ xs, IsName b x.1 x.2) :
    (xs.map Prod.fst).foldl (cleanup b) (kept.map Prod.fst)
        = (xs.foldl keepNamed kept).map Prod.fst ∧
      (xs.foldl keepNamed kept).map Prod.snd
        = (xs.map Prod.snd).foldl keep (kept.map Prod.snd) := by
  induction xs generalizing kept with
  | nil => exact ⟨rfl, rfl⟩
  | cons x xs ih =>
    have hkeep : (keepNamed kept x).map Prod.snd = keep (kept.map Prod.snd) x.2 := by
      unfold keepNamed keep
      split_ifs <;> simp [map_dropLast]
    obtain ⟨hfst, hsnd⟩ := ih (keepNamed kept x) fun y hy => h y (mem_cons_of_mem x hy)
    constructor
    · rw [map_cons, foldl_cons, cleanup_eq (h x (by simp))]
      exact hfst
    · rw [map_cons, foldl_cons, foldl_cons, hsnd, hkeep]

theorem keepNamed_sublist (h : kept.Sublist ys) : (xs.foldl keepNamed kept).Sublist (ys ++ xs) := by
  induction xs generalizing kept ys with
  | nil => simpa using h
  | cons x xs ih =>
    have hkeep : (keepNamed kept x).Sublist (ys ++ [x]) := by
      unfold keepNamed
      split_ifs
      · exact (dropLast_sublist kept).trans (h.trans (sublist_append_left ys [x]))
      · exact h.trans (sublist_append_left ys [x])
      · exact h.append (List.Sublist.refl [x])
    simpa using ih hkeep

theorem buildPath_eq (fuel : ℕ) (h : Laid b w xs) (hf : ∀ x ∈ xs, x.2.length < fuel) :
    ∃ b', buildPath fuel (xs.map Prod.fst) w b
        = some (w + (xs.flatMap fun x => x.2 ++ ['/']).length, b') ∧
      Holds b' w (xs.flatMap fun x => x.2 ++ ['/']) ∧ ∀ i, i < w → b' i = b i := by
  induction xs generalizing b w with
  | nil => exact ⟨b, rfl, trivial, fun _ _ => rfl⟩
  | cons x xs ih =>
    obtain ⟨hle, ⟨hplain, e, he, hheld⟩, hrest⟩ := h
    obtain ⟨b₁, hmove, hheld₁, hsame₁⟩ := moveUntil_down hheld hplain he hle (hf x (by simp))
    -- nothing behind this component has been touched
    have hrest' : Laid (update b₁ (w + x.2.length) '/') (w + x.2.length + 1) xs := by
      refine Laid.congr (hrest.mono (by omega)) fun i hi => ?_
      rw [update_of_ne (by omega), hsame₁ i (by omega)]
    obtain ⟨b', hbuild, hheld', hsame'⟩ := ih hrest' fun y hy => hf y (mem_cons_of_mem x hy)
    refine ⟨b', ?_, ?_, fun i hi => ?_⟩
    · rw [map_cons, buildPath, hmove]
      simp only [bind_eq_bind, bind_some]
      rw [hbuild]
      simp only [flatMap_cons, length_append, length_singleton, Nat.add_assoc]
    · rw [flatMap_cons, append_assoc, Holds.append_iff]
      refine ⟨hheld₁.congr fun i hi hlt => ?_, ?_, hheld'⟩
      · rw [hsame' i (by omega), update_of_ne (by omega)]
      · rw [hsame' _ (by omega), update_self]
    · rw [hsame' i (by omega), update_of_ne (by omega), hsame₁ i (by omega)]

theorem joined_slash (cs : List (List Char)) :
    '/' :: cs.flatMap (fun c => c ++ ['/']) = joined cs ++ ['/'] := by
  induction cs with
  | nil => rfl
  | cons c cs ih =>
    rw [flatMap_cons, append_assoc, singleton_append, ih]
    simp [joined]

theorem named_end : ∀ x ∈ named p t, x.1 + x.2.length ≤ p + t.length := by
  induction t generalizing p with
  | nil => simp [named]
  | cons d t ih =>
    have hrest : ∀ x ∈ named (p + 1) t, x.1 + x.2.length ≤ p + (d :: t).length := by
      intro x hx
      have := ih x hx
      simp only [length_cons]
      omega
    by_cases hd : d = '/'
    · simpa [named, hd] using hrest
    obtain ⟨c, rest, heq⟩ := named_head (p + 1) t
    simp only [heq, forall_mem_cons] at hrest
    simp only [named, hd, if_false, heq, forall_mem_cons, length_cons]
    refine ⟨?_, hrest.2⟩
    have := hrest.1
    simp only [length_cons] at this
    omega

theorem Laid.written {last : ℕ} (h : Laid b w xs) (hw : w ≤ last + 1)
    (hlast : ∀ x ∈ xs, x.1 + x.2.length ≤ last) :
    w + (xs.flatMap fun x => x.2 ++ ['/']).length ≤ last + 1 := by
  induction xs generalizing w with
  | nil => simpa using hw
  | cons x xs ih =>
    have hx := hlast x (by simp)
    have hle : w ≤ x.1 := h.1
    have := ih h.2.2 (by omega) fun y hy => hlast y (mem_cons_of_mem x hy)
    simp only [flatMap_cons, length_append, length_singleton]
    omega

theorem finish_eq {l : List Char} (h : Holds b root.length (l ++ ['/']))
    (hl : nul ∉ l) (hroot : nul ∉ root) (hsize : root.length + l.length < size) :
    finish size root (root.length + 1 + l.length) b
      = some (some (if root = [] ∧ l = [] then ['/'] else root ++ l)) := by
  by_cases hempty : root = [] ∧ l = []
  · -- the slash of the root is kept
    obtain ⟨rfl, rfl⟩ := hempty
    have hheld : Holds (update b 1 nul) 0 (['/'] ++ [nul]) := by
      refine ⟨?_, update_self .., trivial⟩
      rw [update_of_ne (by decide)]
      exact h.1
    have hread : readString (update b 1 nul) (size + 1) 0 = some ['/'] :=
      readString_eq hheld (by decide) (by simpa using hsize)
    simp [finish, hread]
  have hpos : root.length + 1 + l.length > 1 := by
    by_contra hle
    exact hempty ⟨length_eq_zero_iff.mp (by omega), length_eq_zero_iff.mp (by omega)⟩
  rw [finish, if_pos hpos, if_neg hempty, show root.length + 1 + l.length - 1
    = root.length + l.length by omega]
  set b₁ := update b (root.length + l.length) nul
  have hheld₁ : Holds b₁ root.length (l ++ [nul]) := by
    rw [Holds.append_iff] at h ⊢
    refine ⟨h.1.congr fun i hi hlt => update_of_ne (by omega) _ _, ?_, trivial⟩
    exact update_self ..
  have hheld : Holds (if root.length ≠ 0 then write b₁ 0 root else b₁) 0 (root ++ l ++ [nul]) := by
    rw [append_assoc, Holds.append_iff, Nat.zero_add]
    split_ifs with hr
    · exact ⟨holds_write, hheld₁.congr fun i hi _ => write_outside (by omega)⟩
    · obtain rfl : root = [] := length_eq_zero_iff.mp (by omega)
      exact ⟨trivial, hheld₁⟩
  have hnul : nul ∉ root ++ l := by
    rw [mem_append]
    exact fun hmem => hmem.elim hroot hl
  rw [readString_eq hheld hnul (by simp only [length_append]; omega)]
  rfl

/-- The string behind the space for the chroot is normalised, and the chroot put before it. -/
theorem rebuild_eq (h : Holds b root.length ('/' :: t ++ [nul]))
    (ht : nul ∉ t) (hroot : nul ∉ root) (hcount : t.count '/' + 1 < maxPathSlashes)
    (hsize : root.length + t.length + 1 < size) :
    rebuild size root b
      = some (some (if root = [] ∧ lexical t = [] then ['/'] else root ++ lexical t)) := by
  have hheld : Holds b (root.length + 1) (t ++ [nul]) := h.2
  have hnamed := named_laid hheld ht
  obtain ⟨c, rest, hhead⟩ := named_head (root.length + 1) t
  have hparse := parseComps_eq [root.length + 1] hheld ht (by simpa [Nat.add_comm])
    (by omega : t.length < size)
  have hcomps : [root.length + 1] ++ (named (root.length + 1) t).tail.map Prod.fst
      = (named (root.length + 1) t).map Prod.fst := by
    simp [hhead]
  rw [hcomps] at hparse
  obtain ⟨hfst, hsnd⟩ := cleanup_fold [] hnamed.isName
  set kept := (named (root.length + 1) t).foldl keepNamed [] with hkept
  have hsub : kept.Sublist (named (root.length + 1) t) := keepNamed_sublist (List.Sublist.refl [])
  have hlaid : Laid (update b 0 '/') (root.length + 1) kept :=
    (hnamed.sublist hsub).congr fun i hi => update_of_ne (by omega) _ _
  have hend : ∀ x ∈ kept, x.1 + x.2.length ≤ root.length + 1 + t.length :=
    fun x hx => named_end x (hsub.subset hx)
  obtain ⟨b', hbuild, hbuilt, hsame⟩ := buildPath_eq size hlaid fun x hx => by
    have := hend x hx
    omega
  have hlex : joined (kept.map Prod.snd) = lexical t := by
    rw [hsnd, named_snd]
    rfl
  have hslashes : '/' :: kept.flatMap (fun x => x.2 ++ ['/']) = lexical t ++ ['/'] := by
    rw [← hlex, ← joined_slash, flatMap_map]
  have hlen : (kept.flatMap fun x => x.2 ++ ['/']).length = (lexical t).length := by
    simpa using congrArg length hslashes
  have hslash : b' root.length = '/' := by
    rw [hsame _ (by omega)]
    by_cases hr : root.length = 0
    · rw [hr, update_self]
    · rw [update_of_ne hr]
      exact h.1
  have hbuilt' : Holds b' root.length (lexical t ++ ['/']) := hslashes ▸ ⟨hslash, hbuilt⟩
  have hwritten := (hnamed.sublist hsub).written (by omega) hend
  have hnul : nul ∉ lexical t := by
    rw [← hlex]
    intro hmem
    obtain ⟨c, hc, hmem⟩ := mem_flatMap.mp hmem
    obtain ⟨x, hx, rfl⟩ := mem_map.mp hc
    rcases mem_cons.mp hmem with hnul | hmem
    · exact absurd hnul (by decide)
    · have := ((hnamed.sublist hsub).isName x hx).plain nul hmem
      simp [nameEnds] at this
  simp only [rebuild, hparse, bind_eq_bind, bind_some]
  rw [show ([] : List ℕ) = ([] : List (ℕ × List Char)).map Prod.fst from rfl, hfst, hbuild, hlen]
  exact finish_eq hbuilt' hnul hroot (by omega)

variable {ret : Buffer} {r : ℕ} {cwd path : List Char}

/-- The working directory after the slash meant for its end was written without the chroot's length
-/
def smudged (r : ℕ) (cwd : List Char) : List Char := cwd.set (cwd.length - r) '/'

def stored (r : ℕ) (cwd path : List Char) : List Char :=
  if path.head? = some '/' then path else if r = 0 then cwd ++ '/' :: path else smudged r cwd

theorem smudged_holds (h : Holds ret r (cwd ++ [nul])) (hr : r ≠ 0) (hcwd : cwd.head? = some '/') :
    Holds (update ret cwd.length '/') r (smudged r cwd ++ [nul]) := by
  by_cases hle : r ≤ cwd.length
  · have hset := h.set (cwd.length - r) '/'
    rwa [set_append_left _ _ (by omega), show r + (cwd.length - r) = cwd.length by omega] at hset
  -- the slash falls into the space of the chroot
  have hsame : smudged r cwd = cwd := by
    obtain ⟨c, rfl⟩ := head?_eq_some_iff.mp hcwd
    rw [smudged, Nat.sub_eq_zero_of_le (by omega)]
    rfl
  rw [hsame]
  exact h.congr fun i hi _ => update_of_ne (by omega) _ _

theorem place_holds (ret : Buffer) (r : ℕ) (path : List Char) (hcwd : cwd.head? = some '/') :
    Holds (place ret r cwd path) r (stored r cwd path ++ [nul]) := by
  unfold place stored
  split_ifs with habs hr
  · exact holds_strcpy
  · subst hr
    rw [Nat.zero_add, append_assoc, cons_append, Holds.append_iff, Nat.zero_add]
    refine ⟨?_, ?_, holds_strcpy⟩
    · refine (Holds.append_iff.mp (holds_strcpy (b := ret) (p := 0))).1.congr fun i _ hi => ?_
      rw [strcpy_outside (by omega), update_of_ne (by omega)]
    · rw [strcpy_outside (by omega), update_self]
  · refine (smudged_holds holds_strcpy hr hcwd).congr fun i hi hlt => strcpy_outside (.inl ?_)
    simp only [length_append, length_singleton, smudged, length_set] at hlt
    omega

theorem lexical_slash (t : List Char) : lexical ('/' :: t) = lexical t := by
  simp [lexical, splitOn_cons_eq_if_modifyHead, keep]

theorem count_set_le (s : List Char) (i : ℕ) : (s.set i '/').count '/' ≤ s.count '/' + 1 := by
  induction s generalizing i with
  | nil => simp
  | cons d s ih =>
    cases i with
    | zero => simp [count_cons]
    | succ i =>
      rw [set_cons_succ, count_cons, count_cons]
      have := ih i
      omega

theorem take_chrootLen (chroot : List Char) :
    chroot.take (chrootLen chroot) =
      if chroot.getLast? = some '/' then chroot.dropLast else chroot := by
  unfold chrootLen
  split_ifs
  · rw [dropLast_eq_take]
  · exact take_length

theorem nul_notMem_trimmed (chroot : Option Text) : nul ∉ trimmed chroot := by
  have hroot : nul ∉ chroot.elim [] Subtype.val := by
    cases chroot with
    | none => simp
    | some root => exact root.2
  unfold trimmed
  simp only
  split_ifs
  · exact fun hmem => hroot (dropLast_subset _ hmem)
  · exact hroot

theorem cwdOf_spec {cwd : Option Text} (hcwd : ∀ c ∈ cwd, c.val.head? = some '/') :
    (cwdOf cwd).head? = some '/' ∧ nul ∉ cwdOf cwd := by
  cases cwd with
  | none => exact ⟨rfl, by decide⟩
  | some c => exact ⟨hcwd c rfl, c.2⟩

theorem stored_spec (r : ℕ) (path : Text) (hcwd : cwd.head? = some '/') (hnul : nul ∉ cwd) :
    (stored r cwd path.val).head? = some '/' ∧ nul ∉ stored r cwd path.val ∧
      r + (stored r cwd path.val).length < placeSize r cwd path.val ∧
      (stored r cwd path.val).count '/'
        ≤ (if path.val.head? = some '/' then path.val else cwd ++ '/' :: path.val).count '/' := by
  obtain ⟨c, rfl⟩ := head?_eq_some_iff.mp hcwd
  have hslash : nul ≠ '/' := by decide
  unfold stored placeSize
  split_ifs with habs hr
  · exact ⟨habs, path.2, by omega, Nat.le_refl _⟩
  · refine ⟨rfl, ?_, ?_, Nat.le_refl _⟩
    · have hpath := path.2
      simp only [mem_cons, not_or] at hnul
      simp [hnul, hpath]
    · simp only [length_append, length_cons]
      omega
  refine ⟨?_, ?_, ?_, ?_⟩
  · unfold smudged
    cases ('/' :: c).length - r <;> rfl
  · intro hmem
    rcases mem_or_eq_of_mem_set hmem with hmem | heq
    · exact hnul hmem
    · exact hslash heq
  · simp only [smudged, length_set]
    omega
  · have := count_set_le ('/' :: c) (('/' :: c).length - r)
    rw [count_append, count_cons_self (l := path.val)]
    unfold smudged
    omega

variable {malloc : ℕ → Option Buffer} {chroot : Option Text}

theorem vfsGetAbsPath_eq {cwd : Option Text} {path : Text} (hmalloc : ∀ n, malloc n ≠ none)
    (hcwd : ∀ c ∈ cwd, c.val.head? = some '/') (hpath : path.val.head? ≠ some '$')
    (hcount : (whole cwd path).count '/' < maxPathSlashes) :
    vfsGetAbsPath malloc chroot cwd path = some (some (if trimmed chroot = [] ∧
          lexical (stored (trimmed chroot).length (cwdOf cwd) path.val) = [] then ['/']
        else trimmed chroot ++ lexical (stored (trimmed chroot).length (cwdOf cwd) path.val))) := by
  obtain ⟨hhead, hnul⟩ := cwdOf_spec hcwd
  obtain ⟨hslash, hnul', hsize, hle⟩ := stored_spec (trimmed chroot).length path hhead hnul
  obtain ⟨ret, hret⟩ := ne_none_iff_exists'.mp
    (hmalloc (placeSize (trimmed chroot).length (cwdOf cwd) path.val))
  have hheld := place_holds ret (trimmed chroot).length path.val hhead
  obtain ⟨t, ht⟩ := head?_eq_some_iff.mp hslash
  rw [ht] at hheld hnul' hsize hle ⊢
  rw [lexical_slash, ← rebuild_eq hheld (fun hmem => hnul' (mem_cons_of_mem _ hmem))
    (nul_notMem_trimmed chroot) ?_ (by simpa [Nat.add_assoc] using hsize)]
  · have htrim : (chroot.elim [] Subtype.val).take (chrootLen (chroot.elim [] Subtype.val))
        = trimmed chroot := take_chrootLen _
    simp only [vfsGetAbsPath, hpath, if_false, htrim, hret]
  · rw [count_cons_self] at hle
    exact Nat.lt_of_le_of_lt hle hcount

/-- An absolute path that is already normalised: `/`, or components that all stay. -/
def Normalised (s : List Char) : Prop :=
  s = ['/'] ∨ ∃ cs ≠ [], s = joined cs ∧ ∀ c ∈ cs, c ≠ [] ∧ c ≠ ['.'] ∧ c ≠ ['.', '.'] ∧ '/' ∉ c

variable {cs : List (List Char)}

theorem keep_fold {kept : List (List Char)}
    (h : ∀ c ∈ cs, c ≠ [] ∧ c ≠ ['.'] ∧ c ≠ ['.', '.'] ∧ '/' ∉ c) :
    cs.foldl keep kept = kept ++ cs := by
  induction cs generalizing kept with
  | nil => simp
  | cons c cs ih =>
    obtain ⟨hempty, hdot, hdots, -⟩ := h c (by simp)
    rw [foldl_cons, ih fun d hd => h d (mem_cons_of_mem c hd)]
    simp [keep, hempty, hdot, hdots]

theorem joined_intercalate (cs : List (List Char)) : joined cs = ['/'].intercalate ([] :: cs) := by
  induction cs with
  | nil => rfl
  | cons c cs ih =>
    cases cs with
    | nil => simp [joined]
    | cons d cs => simp_all [joined, intercalate]

theorem lexical_joined (h : ∀ c ∈ cs, c ≠ [] ∧ c ≠ ['.'] ∧ c ≠ ['.', '.'] ∧ '/' ∉ c) :
    lexical (joined cs) = joined cs := by
  have hsplit : (joined cs).splitOn '/' = [] :: cs := by
    rw [joined_intercalate]
    refine splitOn_intercalate _ (fun c hc => ?_) (by simp)
    rcases mem_cons.mp hc with rfl | hc
    · simp
    · exact (h c hc).2.2.2
  rw [lexical, hsplit, foldl_cons]
  simp [keep, keep_fold h]

/-- A path comes out as the chroot and its normalisation exactly when it is absolute, or there is no
chroot, or the misplaced slash happens to do no harm. The chroot is always in front, and without one
a normalised path does not change. -/
theorem absPath_normalises_iff {cwd : Option Text} {path : Text} (hmalloc : ∀ n, malloc n ≠ none)
    (hcwd : ∀ c ∈ cwd, c.val.head? = some '/') (hpath : path.val.head? ≠ some '$')
    (hcount : (whole cwd path).count '/' < maxPathSlashes) :
    (vfsGetAbsPath malloc chroot cwd path = some (some (absPath chroot cwd path)) ↔
      path.val.head? = some '/' ∨ trimmed chroot = [] ∨
        lexical (smudged (trimmed chroot).length (cwdOf cwd)) = lexical (whole cwd path)) ∧
    (∃ s, vfsGetAbsPath malloc chroot cwd path = some (some s) ∧ trimmed chroot <+: s) ∧
    (Normalised path.val → trimmed chroot = [] →
      vfsGetAbsPath malloc chroot cwd path = some (some path.val)) := by
  have heq : vfsGetAbsPath malloc chroot cwd path = _ := vfsGetAbsPath_eq hmalloc hcwd hpath hcount
  have hgood : path.val.head? = some '/' ∨ trimmed chroot = [] →
      stored (trimmed chroot).length (cwdOf cwd) path.val = whole cwd path := by
    intro h
    unfold stored whole
    split_ifs with habs hr
    · rfl
    · rfl
    · exact absurd (length_eq_zero_iff.mpr (h.resolve_left habs)) hr
  refine ⟨?_, ?_, fun hnorm hroot => ?_⟩
  · by_cases h : path.val.head? = some '/' ∨ trimmed chroot = []
    · rw [heq, hgood h]
      exact iff_of_true rfl (h.imp_right .inl)
    · obtain ⟨habs, hroot⟩ := not_or.mp h
      have hstored : stored (trimmed chroot).length (cwdOf cwd) path.val
          = smudged (trimmed chroot).length (cwdOf cwd) := by
        simp [stored, habs, hroot]
      rw [heq, hstored]
      simp [absPath, habs, hroot]
  · refine ⟨_, heq, ?_⟩
    split_ifs with hempty
    · simp [hempty.1]
    · exact prefix_append _ _
  · rcases hnorm with hslash | ⟨cs, hcs, hjoined, hplain⟩
    · have hlex : lexical ['/'] = [] := by decide
      rw [heq, hgood (.inr hroot)]
      simp [whole, hslash, hroot, hlex]
    · have hhead : path.val.head? = some '/' := by
        rw [hjoined]
        cases cs with
        | nil => exact absurd rfl hcs
        | cons c cs => rfl
      have hlex : lexical path.val = path.val := by rw [hjoined, lexical_joined hplain]
      have hne : path.val ≠ [] := fun hnil => by simp [hnil] at hhead
      rw [heq, hgood (.inr hroot), whole, if_pos hhead, hlex, hroot]
      simp [hne]

def text (s : String) (h : nul ∉ s.toList) : Text := ⟨s.toList, h⟩

/-- In a chroot, a path with `..` at its root. -/
theorem absPath_normalises_sample :
    vfsGetAbsPath (fun _ => some fun _ => 'x') (some (text "/jail/" (by decide))) none
        (text "/../a//./b/c/.." (by decide)) = some (some "/jail/a/b".toList) := by
  refine (absPath_normalises_iff (by simp) (by simp) (by decide) (by decide)).1.mpr
    (.inl (by decide)) |>.trans ?_
  decide

/-- In a chroot, a relative path is lost. -/
theorem chroot_loses_relative_path :
    vfsGetAbsPath (fun _ => some fun _ => 'x') (some (text "/jail" (by decide)))
        (some (text "/home" (by decide))) (text "etc" (by decide))
        = some (some "/jail/home".toList) ∧
      absPath (some (text "/jail" (by decide))) (some (text "/home" (by decide)))
        (text "etc" (by decide)) = "/jail/home/etc".toList := by
  decide +kernel

end VfsPaths
