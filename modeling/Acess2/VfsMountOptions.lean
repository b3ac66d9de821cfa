import Acess2.CharBuffers

/-! The options of a mount (`VFS_Mount`). The string is cut at its commas in place, the pieces go to
`InitDevice`, and the commas are put back. The loop that counts the pieces searches for the next
comma from the last one on, and finds that one again. -/
namespace VfsMountOptions

open CharBuffers Function List

/-- `strchr`, over `fuel` characters at most -/
def strchr (b : Buffer) (c : Char) : ℕ → ℕ → Option (Option ℕ)
  | 0, _ => none
  | fuel + 1, s =>
    if b s = nul then some none
    else if b s = c then some (some s)
    else strchr b c fuel (s + 1)

/-- `do { nArg ++; } while( (str = strchr(str, ',')) );` of a string of `size` characters, for
`rounds` rounds at most -/
def countArgs (b : Buffer) (size : ℕ) : ℕ → ℕ → ℕ → Option ℕ
  | 0, _, _ => none
  | rounds + 1, str, nArg =>
    (strchr b ',' size str).bind fun found =>
      match found with
      | none => some (nArg + 1)
      | some comma => countArgs b size rounds comma (nArg + 1)

/-- The loop that fills `args`, and ends the string at each comma -/
def fillArgs (size : ℕ) : ℕ → Buffer → ℕ → List ℕ → Option (Buffer × List ℕ)
  | 0, _, _, _ => none
  | rounds + 1, b, str, args =>
    (strchr b ',' size str).bind fun found =>
      match found with
      | none => some (b, args ++ [str])
      | some comma => fillArgs size rounds (update b comma nul) comma (args ++ [str])

/-- `while( nArg -- > 1 ) args[nArg][-1] = ',';` -/
def repairOptions (b : Buffer) (args : List ℕ) : Buffer :=
  args.tail.foldr (fun arg b => update b (arg - 1) ',') b

/-- What `InitDevice` is given, and `mnt->Options` after the repair -/
def parseOptions (rounds : ℕ) (options : Text) : Option (List (List Char) × Buffer) :=
  let b := strcpy (fun _ => nul) 0 options
  let size := options.val.length + 1
  (countArgs b size rounds 0 0).bind fun _ =>
    (fillArgs size rounds b 0 []).bind fun (b, args) =>
      (args.mapM (readString b size)).map fun strings => (strings, repairOptions b args)

variable {b : Buffer} {c : Char} {s : List Char} {fuel p i : ℕ}

theorem strchr_found (h : strchr b c fuel p = some (some i)) : b i = c := by
  induction fuel generalizing p with
  | zero => cases h
  | succ fuel ih =>
    rw [strchr] at h
    split_ifs at h with hend hhere
    · cases h
    · cases h
      exact hhere
    · exact ih h

theorem strchr_here (hc : c ≠ nul) (h : b p = c) : strchr b c (fuel + 1) p = some (some p) := by
  rw [strchr, if_neg (h ▸ hc), if_pos h]

theorem strchr_none_iff (h : Holds b p (s ++ [nul])) (hs : nul ∉ s) (hf : s.length < fuel) :
    strchr b c fuel p = some none ↔ c ∉ s := by
  induction s generalizing p fuel with
  | nil =>
    obtain ⟨m, rfl⟩ := Nat.exists_eq_add_of_lt hf
    simp [strchr, h.1]
  | cons d s ih =>
    cases fuel with
    | zero => exact absurd hf (by simp)
    | succ fuel =>
      have hd : d ≠ nul := fun hd => hs (hd ▸ mem_cons_self)
      rw [strchr, h.1, if_neg hd]
      by_cases hc : d = c
      · simp [hc]
      · rw [if_neg hc, ih h.2 (fun hmem => hs (mem_cons_of_mem d hmem)) (by simpa using hf)]
        simp [Ne.symm hc]

/-- Once at a comma, the count goes on for ever. -/
theorem countArgs_at_comma (h : b p = ',') (size rounds nArg : ℕ) :
    countArgs b (size + 1) rounds p nArg = none := by
  induction rounds generalizing nArg with
  | zero => rfl
  | succ rounds ih =>
    rw [countArgs, strchr_here (by decide) h]
    exact ih (nArg + 1)

theorem parseOptions_comma {options : Text} (h : ',' ∈ options.val) (rounds : ℕ) :
    parseOptions rounds options = none := by
  have hcount : ∀ nArg,
      countArgs (strcpy (fun _ => nul) 0 options) (options.val.length + 1) rounds 0
      nArg = none := by
    intro nArg
    cases rounds with
    | zero => rfl
    | succ rounds =>
      rw [countArgs]
      cases hfound : strchr (strcpy (fun _ => nul) 0 options) ',' (options.val.length + 1) 0 with
      | none => rfl
      | some found =>
        cases found with
        | none =>
          exact absurd h ((strchr_none_iff holds_strcpy options.property (by omega)).mp hfound)
        | some comma => exact countArgs_at_comma (strchr_found hfound) _ rounds (nArg + 1)
  rw [parseOptions, hcount]
  rfl

/-- The loops end with the pieces handed over and the string as it was, exactly if the string has
no comma. -/
theorem options_handed_over_iff (options : Text) :
    (∃ rounds b, parseOptions rounds options = some (options.val.splitOn ',', b) ∧
      Holds b 0 (options.val ++ [nul])) ↔ ',' ∉ options.val := by
  constructor
  · rintro ⟨rounds, b, hparse, -⟩ hcomma
    rw [parseOptions_comma hcomma] at hparse
    cases hparse
  · intro hcomma
    have hheld : Holds (strcpy (fun _ => nul) 0 options) 0 (options.val ++ [nul]) := holds_strcpy
    have hend := (strchr_none_iff hheld options.property (Nat.lt_succ_self _)).mpr hcomma
    have hread := readString_eq hheld options.property (Nat.lt_succ_self _)
    refine ⟨1, _, ?_, hheld⟩
    simp [parseOptions, countArgs, fillArgs, hend, hread, splitOn_eq_singleton hcomma,
      repairOptions]

/-- With `a,b` the call never gets to `InitDevice`. -/
theorem two_options_hang : (∀ rounds, parseOptions rounds ⟨['a', ',', 'b'], by decide⟩ = none) ∧
      ['a', ',', 'b'].splitOn ',' = [['a'], ['b']] :=
  ⟨parseOptions_comma (by decide), by decide⟩

end VfsMountOptions
