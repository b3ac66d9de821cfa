import Acess2.Vt100

/-! The VT100 parser when it is given a part of what is to come.
A call always takes a byte or empties a cache that is full; an escape sequence is read the same
way however much of what follows it is there, and while it is not complete nothing is done, but
for an OSC sequence without a number. -/
namespace Vt100Prefixes

open Strtoi (kernelIsdigit)
open List Nat Vt100

variable {beyond : ℕ → UInt32} {st : VT100State} {buf : List UInt8}

theorem handleString_open (h : locateEos buf ≠ some 0) : handleString st buf =
      ⟨.ok ((locateEos buf).getD buf.length),
        { st with stringCache := st.stringCache ++ buf.take ((locateEos buf).getD buf.length) },
          []⟩ := by
  rw [handleString, if_pos h]

variable {r : ℤ} {c : UInt8}

theorem handleString_progress (hbuf : buf ≠ []) (h : (handleString st buf).ret = .ok r) :
    r ≠ 0 := by
  by_cases heos : locateEos buf = some 0
  · rw [handleString, if_neg (not_not_intro heos)] at h
    cases h
    exact one_ne_zero
  rw [handleString_open heos] at h
  cases h
  cases hpos : locateEos buf with
  | none => simpa [hpos] using hbuf
  | some p =>
    have hp : p ≠ 0 := by
      rintro rfl
      exact heos hpos
    simpa [hpos] using hp

theorem handleEscape_progress (hbuf : buf ≠ []) (h : (handleEscape beyond st buf).ret = .ok r) :
    r ≠ 0 ∨ (maxEscapeLen ≤ st.cache.length ∧ (handleEscape beyond st buf).st.cache = []) := by
  have hpos : 0 < buf.length := length_pos_iff.mpr hbuf
  rw [handleEscape] at h ⊢
  split_ifs at h ⊢ with hfull hone
  · exact .inr ⟨by omega, rfl⟩
  · cases h
    exact .inl one_ne_zero
  left
  cases hshort : (handleShort beyond { st with cache := [] }
      (st.cache ++ buf.take (min (maxEscapeLen - st.cache.length) buf.length))).ret with
  | error f => simp [hshort] at h
  | ok ret =>
    simp only [hshort] at h
    split_ifs at h with hzero hold
    · cases h
      omega
    · cases h
      omega

theorem endsText_cases (h : endsText c = true) :
    c = esc ∨ c = 0x08 ∨ c = 0x09 ∨ c = 0x0a ∨ c = 0x0d := by
  simpa [endsText] using h

theorem handlePlain_text {rest : List UInt8} (hc : endsText c = false) :
    handlePlain st (c :: rest) =
      ⟨.ok (-((c :: rest).takeWhile fun c => !endsText c).length), st, []⟩ := by
  have hcontrol : ¬ (c = esc ∨ c = 0x08 ∨ c = 0x09 ∨ c = 0x0a ∨ c = 0x0d) := by
    simpa [endsText] using hc
  simp only [not_or] at hcontrol
  obtain ⟨-, hb, ht, hn, hr⟩ := hcontrol
  simp only [handlePlain, headD_cons, if_neg hb, if_neg ht, if_neg hn, if_neg hr]

theorem handlePlain_progress (hbuf : buf ≠ []) (hesc : buf.headD 0 ≠ esc)
    (h : (handlePlain st buf).ret = .ok r) : r ≠ 0 := by
  obtain ⟨c, rest, rfl⟩ := exists_cons_of_ne_nil hbuf
  cases htext : endsText c with
  | false =>
    rw [handlePlain_text htext, takeWhile_cons, if_pos (by rw [htext]; rfl)] at h
    cases h
    rw [length_cons]
    omega
  | true =>
    rcases endsText_cases htext with rfl | rfl | rfl | rfl | rfl
    · exact absurd rfl hesc
    · cases h
      exact one_ne_zero
    · cases h
      exact one_ne_zero
    · cases h
      exact one_ne_zero
    · simp only [handlePlain, headD_cons] at h
      split_ifs at h <;> obtain rfl := Except.ok.inj h <;> decide

theorem handleVT100_progress (hbuf : buf ≠ []) (h : (handleVT100 beyond st buf).ret = .ok r) :
    r ≠ 0 ∨ (maxEscapeLen ≤ st.cache.length ∧ (handleVT100 beyond st buf).st.cache = []) := by
  rw [handleVT100] at h ⊢
  cases hmode : st.mode with
  | ignore =>
    simp only [hmode] at h
    cases h
    exact .inl one_ne_zero
  | string =>
    simp only [hmode] at h
    exact .inl (handleString_progress hbuf h)
  | normal =>
    simp only [hmode] at h ⊢
    split_ifs at h ⊢ with hesc
    · exact handleEscape_progress hbuf h
    · exact .inl (handlePlain_progress hbuf (fun hc => hesc (.inr hc)) h)

variable {args : Fin 6 → ℕ} {argc len : ℕ} {question : Bool} {u x : List UInt8} {seq : Sequence}

theorem readArgs_rest (h : readArgs args argc c u = .ok (some seq)) :
    seq.rest.length ≤ u.length := by
  induction u generalizing args argc c with
  | nil =>
    rw [readArgs] at h
    split at h
    · cases h
    · cases h
      exact le_rfl
    · cases h
  | cons d u ih =>
    rw [readArgs] at h
    split at h
    · cases h
    · cases h
      exact le_rfl
    · exact (ih h).trans (le_succ _)

/-- What was read of a part, and what is read of it with `x` behind -/
def Extended (x : List UInt8) :
    Except Fault (Option Sequence) → Except Fault (Option Sequence) → Prop
  | .error f, read => read = .error f
  | .ok none, read => ∀ seq, read = .ok (some seq) → seq.rest.length < x.length
  | .ok (some seq), read => read = .ok (some { seq with rest := seq.rest ++ x })

theorem readArgs_append : Extended x (readArgs args argc c u) (readArgs args argc c (u ++ x)) := by
  induction u generalizing args argc c with
  | nil =>
    rw [nil_append, readArgs, readArgs]
    cases argsTurn args argc c with
    | error f => rfl
    | ok next =>
      cases next with
      | none => rfl
      | some next =>
        intro seq hseq
        cases x with
        | nil => cases hseq
        | cons d x => exact lt_succ_of_le (readArgs_rest hseq)
  | cons d u ih =>
    rw [cons_append, readArgs, readArgs]
    cases argsTurn args argc c with
    | error f => rfl
    | ok next =>
      cases next with
      | none => rfl
      | some next => exact ih

theorem handleCommand_append (seq : Sequence) :
    handleCommand beyond st (len + x.length) question { seq with rest := seq.rest ++ x } =
      handleCommand beyond st len question seq := by
  simp only [handleCommand, length_append, Nat.add_sub_add_right]
  rfl

theorem handleCommand_ret {r : ℕ} (h : (handleCommand beyond st len question seq).ret = .ok r) :
    r = len - seq.rest.length := by
  rw [handleCommand] at h
  generalize (if question then privateMode st seq else command beyond st seq) = effect at h
  cases halpha : isalpha seq.c with
  | false =>
    simp only [halpha, Bool.not_false, if_true] at h
    exact (Except.ok.inj h).symm
  | true =>
    simp only [halpha, Bool.not_true, Bool.false_eq_true, if_false] at h
    cases hfault : effect.fault with
    | some f => simp [hfault] at h
    | none =>
      simp only [hfault] at h
      exact (Except.ok.inj h).symm

/-- A reader of more and more bytes: at an end nothing changes, before it it waits for more. -/
structure Incremental (st : VT100State) (read : List UInt8 → Parsed ℕ) : Prop where
  stable : ∀ u x, (read u).ret ≠ .ok 0 → read (u ++ x) = read u
  bounded : ∀ u r, (read u).ret = .ok r → r ≤ u.length
  waits : ∀ u, (read u).ret = .ok 0 → read u = more st
  beyond : ∀ u x r, (read u).ret = .ok 0 → (read (u ++ x)).ret = .ok r → r ≠ 0 → u.length < r

def parseArgs (c : UInt8) (rest : List UInt8) : Except Fault (Option Sequence) :=
  if kernelIsdigit c ∨ c = semicolon then readArgs (fun _ => 0) 0 c rest
  else .ok (some ⟨fun _ => 0, 0, c, rest⟩)

theorem parseArgs_rest (h : parseArgs c u = .ok (some seq)) : seq.rest.length ≤ u.length := by
  rw [parseArgs] at h
  split_ifs at h
  · exact readArgs_rest h
  · cases h
    exact le_rfl

theorem parseArgs_append : Extended x (parseArgs c u) (parseArgs c (u ++ x)) := by
  rw [parseArgs, parseArgs]
  split_ifs
  · exact readArgs_append
  · rfl

def parseLong : List UInt8 → Bool × Except Fault (Option Sequence)
  | [] => (false, .ok none)
  | c :: rest =>
    if c = questionMark then
      match rest with
      | [] => (true, .ok none)
      | c :: rest => (true, parseArgs c rest)
    else (false, parseArgs c rest)

def finishLong (beyond : ℕ → UInt32) (st : VT100State) (len : ℕ) :
    Bool × Except Fault (Option Sequence) → Parsed ℕ
  | (_, .error f) => ⟨.error f, st, []⟩
  | (_, .ok none) => more st
  | (question, .ok (some seq)) => handleCommand beyond st len question seq

theorem handleArgs_eq : handleArgs beyond st len question c u =
    finishLong beyond st len (question, parseArgs c u) := by
  rw [handleArgs, parseArgs]
  split_ifs
  · cases readArgs (fun _ => 0) 0 c u with
    | error f => rfl
    | ok next => cases next <;> rfl
  · rfl

theorem handleLong_eq : handleLong beyond st u = finishLong beyond st u.length (parseLong u) := by
  match u with
  | [] => rfl
  | c :: rest =>
    by_cases hq : c = questionMark
    · cases rest with
      | nil => simp [handleLong, parseLong, finishLong, hq]
      | cons d rest => simp only [handleLong, parseLong, if_pos hq, handleArgs_eq]
    · simp only [handleLong, parseLong, if_neg hq, handleArgs_eq]

theorem parseLong_rest (u : List UInt8) (seq : Sequence) (h : (parseLong u).2 = .ok (some seq)) :
    seq.rest.length < u.length := by
  match u with
  | [] => cases h
  | c :: rest =>
    by_cases hq : c = questionMark
    · cases rest with
      | nil => simp [parseLong, hq] at h
      | cons d rest =>
        simp only [parseLong, if_pos hq] at h
        exact lt_succ_of_le ((parseArgs_rest h).trans (le_succ _))
    · simp only [parseLong, if_neg hq] at h
      exact lt_succ_of_le (parseArgs_rest h)

theorem parseLong_append (u x : List UInt8) : Extended x (parseLong u).2 (parseLong (u ++ x)).2 ∧
      ((parseLong u).2 = .ok none ∨ (parseLong (u ++ x)).1 = (parseLong u).1) := by
  match u with
  | [] => exact ⟨parseLong_rest x, .inl rfl⟩
  | c :: rest =>
    rw [cons_append]
    by_cases hq : c = questionMark
    · simp only [parseLong, if_pos hq]
      cases rest with
      | nil =>
        refine ⟨fun seq h => ?_, .inl rfl⟩
        cases x with
        | nil => cases h
        | cons d x => exact lt_succ_of_le (parseArgs_rest h)
      | cons d rest => exact ⟨parseArgs_append, .inr rfl⟩
    · simp only [parseLong, if_neg hq]
      exact ⟨parseArgs_append, .inr trivial⟩

theorem incremental_handleLong : Incremental st (handleLong beyond st) where
  stable u x h := by
    obtain ⟨hread, hq⟩ := parseLong_append u x
    rw [handleLong_eq] at h ⊢
    rw [handleLong_eq, length_append]
    generalize parseLong u = part, parseLong (u ++ x) = whole at *
    obtain ⟨q, read⟩ := whole
    obtain ⟨q', f | _ | seq⟩ := part
    · obtain rfl : read = .error f := hread
      rfl
    · exact absurd rfl h
    · obtain rfl : read = _ := hread
      obtain rfl : q = q' := hq.resolve_left nofun
      exact handleCommand_append seq
  bounded u r h := by
    rw [handleLong_eq] at h
    generalize parseLong u = part at h
    obtain ⟨q, f | _ | seq⟩ := part
    · cases h
    · cases h
      exact zero_le _
    · have hret := handleCommand_ret h
      omega
  waits u h := by
    have hrest := parseLong_rest u
    rw [handleLong_eq] at h ⊢
    generalize parseLong u = part at *
    obtain ⟨q, f | _ | seq⟩ := part
    · cases h
    · rfl
    · have hret := handleCommand_ret h
      have hlt := hrest seq rfl
      omega
  beyond u x r h hr hne := by
    have hrest := parseLong_rest u
    obtain ⟨hread, -⟩ := parseLong_append u x
    rw [handleLong_eq] at h hr
    rw [length_append] at hr
    generalize parseLong u = part, parseLong (u ++ x) = whole at *
    obtain ⟨q, f | _ | seq⟩ := part
    · cases h
    · obtain ⟨q', f | _ | seq⟩ := whole
      · cases hr
      · exact absurd (Except.ok.inj hr).symm hne
      · have hret := handleCommand_ret hr
        have hlt : seq.rest.length < x.length := hread seq rfl
        omega
    · have hret := handleCommand_ret h
      have hlt := hrest seq rfl
      omega

def Numbered (p : List UInt8) : Prop :=
  (∀ c ∈ p.head?, kernelIsdigit c = true) ∧ ∀ c ∈ (p.dropWhile kernelIsdigit).head?, c = semicolon

variable {ps : ℕ}

theorem readNumber_append (h : ∀ v, readNumber ps u ≠ .ok (v, [])) :
    readNumber ps (u ++ x) = (readNumber ps u).map fun r => (r.1, r.2 ++ x) := by
  induction u generalizing ps with
  | nil => exact absurd rfl (h ps)
  | cons d u ih =>
    rw [readNumber] at h ⊢
    rw [cons_append, readNumber]
    dsimp only at h ⊢
    split_ifs at h ⊢ with hdigit hvalue
    · exact ih h
    · rfl
    · rfl

theorem readNumber_rest {v : ℕ} {rest : List UInt8} (h : readNumber ps u = .ok (v, rest)) :
    rest = u.dropWhile kernelIsdigit := by
  induction u generalizing ps with
  | nil =>
    obtain ⟨-, rfl⟩ : ps = v ∧ [] = rest := by simpa [readNumber] using h
    rfl
  | cons d u ih =>
    rw [readNumber] at h
    dsimp only at h
    split_ifs at h with hdigit hvalue
    · rw [dropWhile_cons_of_pos hdigit]
      exact ih h
    · obtain ⟨-, rfl⟩ : ps = v ∧ d :: u = rest := by simpa using h
      rw [dropWhile_cons_of_neg hdigit]

theorem handleOSC_stable (h : (handleOSC st u).ret ≠ .ok 0) :
    handleOSC st (u ++ x) = handleOSC st u := by
  rw [handleOSC] at h ⊢
  rw [handleOSC]
  by_cases hshort : u.length < 2
  · simp [hshort, more] at h
  have hlong : ¬ (u ++ x).length < 2 := by
    rw [length_append]
    omega
  simp only [if_neg hshort, if_neg hlong] at h ⊢
  have hread : readNumber 0 (u ++ x) = (readNumber 0 u).map fun r => (r.1, r.2 ++ x) := by
    refine readNumber_append fun v hv => ?_
    rw [hv] at h
    exact h rfl
  rw [hread]
  generalize readNumber 0 u = read at h
  obtain f | ⟨ps, _ | ⟨d, rest⟩⟩ := read
  · rfl
  · exact absurd rfl h
  · have hfirst : u.length + x.length - (rest.length + x.length + 1) =
        u.length - (rest.length + 1) := by
      omega
    simp only [Except.map, cons_append, length_append, hfirst, Nat.add_sub_add_right]

theorem handleOSC_le {r : ℕ} (h : (handleOSC st u).ret = .ok r) : r ≤ u.length := by
  rw [handleOSC] at h
  by_cases hshort : u.length < 2
  · simp only [if_pos hshort, more] at h
    cases h
    exact zero_le _
  simp only [if_neg hshort] at h
  generalize readNumber 0 u = read at h
  obtain f | ⟨ps, _ | ⟨d, rest⟩⟩ := read
  · cases h
  · cases h
    exact zero_le _
  · dsimp only at h
    split_ifs at h <;> obtain rfl := Except.ok.inj h <;> omega

theorem handleOSC_waits (h : (handleOSC st u).ret = .ok 0)
    (hmode : (handleOSC st u).st.mode ≠ .string) :
    handleOSC st u = more st ∧ (u.length < 2 ∨ u.dropWhile kernelIsdigit = []) := by
  rw [handleOSC] at h hmode ⊢
  by_cases hshort : u.length < 2
  · simp only [if_pos hshort]
    exact ⟨trivial, .inl hshort⟩
  simp only [if_neg hshort] at h hmode ⊢
  rcases hread : readNumber 0 u with f | ⟨ps, _ | ⟨d, rest⟩⟩
  · simp [hread] at h
  · exact ⟨rfl, .inr (readNumber_rest hread).symm⟩
  · simp only [hread] at hmode
    split_ifs at hmode <;> exact absurd rfl hmode

theorem Numbered.left (h : Numbered (u ++ x)) : Numbered u := by
  obtain ⟨hhead, hrest⟩ := h
  constructor
  · cases u with
    | nil => simp
    | cons d u => simpa using hhead
  · intro c hc
    apply hrest
    rw [dropWhile_append]
    cases hdrop : u.dropWhile kernelIsdigit with
    | nil => simp [hdrop] at hc
    | cons d rest => simpa [hdrop] using hc

theorem handleOSC_beyond {r : ℕ} (hnum : Numbered (u ++ x)) (h : (handleOSC st u).ret = .ok 0)
    (hmode : (handleOSC st u).st.mode ≠ .string) (hr : (handleOSC st (u ++ x)).ret = .ok r)
    (hne : r ≠ 0) : u.length < r := by
  have hdigits : u.dropWhile kernelIsdigit = [] := by
    rcases (handleOSC_waits h hmode).2 with hshort | hall
    · match u with
      | [] => rfl
      | [d] =>
        have hd : kernelIsdigit d = true := hnum.1 d (by simp)
        simp [hd]
      | d :: e :: u => simp only [length_cons] at hshort; omega
    · exact hall
  rw [handleOSC] at hr
  by_cases hshort : (u ++ x).length < 2
  · simp only [if_pos hshort, more] at hr
    exact absurd (Except.ok.inj hr).symm hne
  simp only [if_neg hshort] at hr
  rcases hread : readNumber 0 (u ++ x) with f | ⟨ps, _ | ⟨d, rest⟩⟩
  · simp [hread] at hr
  · simp only [hread, more] at hr
    exact absurd (Except.ok.inj hr).symm hne
  have hrest := readNumber_rest hread
  have hd : d = semicolon := hnum.2 d (by rw [← hrest]; rfl)
  have hlen : (d :: rest).length ≤ x.length := by
    rw [hrest, dropWhile_append, hdigits]
    exact (dropWhile_suffix _).length_le
  simp only [hread, hd, ne_eq, not_true_eq_false, if_false] at hr
  cases hr
  rw [length_append]
  rw [length_cons] at hlen
  omega

theorem behindPrefix_zero {p : Parsed ℕ} (h : p.behindPrefix.ret = .ok 0) : p.ret = .ok 0 := by
  obtain ⟨ret, st, ops⟩ := p
  cases ret with
  | error f => simp [Parsed.behindPrefix, Except.map] at h
  | ok tmp =>
    simp only [Parsed.behindPrefix, Except.map, Except.ok.injEq] at h ⊢
    split_ifs at h with hzero
    · exact hzero

theorem behindPrefix_ok {p : Parsed ℕ} {r : ℕ} (h : p.behindPrefix.ret = .ok r) (hne : r ≠ 0) :
    ∃ n, n ≠ 0 ∧ r = n + 2 ∧ p.ret = .ok n := by
  obtain ⟨ret, st, ops⟩ := p
  cases ret with
  | error f => simp [Parsed.behindPrefix, Except.map] at h
  | ok tmp =>
    simp only [Parsed.behindPrefix, Except.map, Except.ok.injEq] at h
    split_ifs at h with hzero
    · exact absurd h.symm hne
    · exact ⟨tmp, hzero, h.symm, rfl⟩

theorem behindPrefix_more : (more st).behindPrefix = more st := rfl

theorem behindPrefix_ne_zero {p : Parsed ℕ} (h : p.behindPrefix.ret ≠ .ok 0) : p.ret ≠ .ok 0 := by
  obtain ⟨ret, st, ops⟩ := p
  rintro rfl
  exact h rfl

def OscNumbered : List UInt8 → Prop
  | _ :: c :: p => c = 93 → Numbered p
  | _ => True

theorem OscNumbered.left {w : List UInt8} (h : OscNumbered (w ++ x)) : OscNumbered w := by
  match w with
  | [] => trivial
  | [_] => trivial
  | _ :: c :: p => exact fun hc => (h hc).left

inductive Kind where
  | long
  | osc
  | oneMore
  | done (ops : List Display)

def Kind.handle (beyond : ℕ → UInt32) (st : VT100State) (p : List UInt8) : Kind → Parsed ℕ
  | .long => (handleLong beyond st p).behindPrefix
  | .osc => (handleOSC st p).behindPrefix
  | .oneMore => if p = [] then more st else ⟨.ok 3, st, []⟩
  | .done ops => ⟨.ok 2, st, ops⟩

theorem handleShort_kind (beyond : ℕ → UInt32) (c : UInt8) : ∃ kind : Kind,
    ((kind = .long → c = 91) ∧ (kind = .osc → c = 93)) ∧
      ∀ st e p, handleShort beyond st (e :: c :: p) = kind.handle beyond st p := by
  have hmore (st : VT100State) (e : UInt8) (p : List UInt8) :
      (if (e :: c :: p).length ≤ 2 then more st else ⟨.ok 3, st, []⟩) =
        Kind.oneMore.handle beyond st p := by
    cases p <;> simp [Kind.handle]
  simp only [handleShort, getD_cons_succ, getD_cons_zero, hmore]
  split
  case h_1 heq =>
    have hc : c.toNat = 91 := congrArg Char.toNat heq
    exact ⟨.long, ⟨fun _ => UInt8.toNat_inj.mp hc, nofun⟩, fun _ _ _ => rfl⟩
  case h_2 heq =>
    have hc : c.toNat = 93 := congrArg Char.toNat heq
    exact ⟨.osc, ⟨nofun, fun _ => UInt8.toNat_inj.mp hc⟩, fun _ _ _ => rfl⟩
  all_goals first
    | exact ⟨.oneMore, ⟨nofun, nofun⟩, fun _ _ _ => rfl⟩
    | exact ⟨.done _, ⟨nofun, nofun⟩, fun _ _ _ => rfl⟩

variable {kind : Kind} {p : List UInt8} {r : ℕ}

theorem Kind.handle_stable (h : (kind.handle beyond st p).ret ≠ .ok 0) :
    kind.handle beyond st (p ++ x) = kind.handle beyond st p := by
  cases kind with
  | long =>
    rw [Kind.handle, Kind.handle, incremental_handleLong.stable p x (behindPrefix_ne_zero h)]
  | osc => rw [Kind.handle, Kind.handle, handleOSC_stable (behindPrefix_ne_zero h)]
  | oneMore =>
    have hp : p ≠ [] := by
      rintro rfl
      exact h rfl
    rw [Kind.handle, Kind.handle, if_neg hp, if_neg (by simp [hp])]
  | done ops => rfl

theorem Kind.handle_bounds (h : (kind.handle beyond st p).ret = .ok r) (hne : r ≠ 0) :
    2 ≤ r ∧ r ≤ p.length + 2 := by
  cases kind with
  | long =>
    obtain ⟨n, -, rfl, hn⟩ := behindPrefix_ok h hne
    have hle := incremental_handleLong.bounded p n hn
    omega
  | osc =>
    obtain ⟨n, -, rfl, hn⟩ := behindPrefix_ok h hne
    have hle := handleOSC_le hn
    omega
  | oneMore =>
    rw [Kind.handle] at h
    split_ifs at h with hp
    · exact absurd (Except.ok.inj h).symm hne
    · cases h
      have hpos := length_pos_iff.mpr hp
      omega
  | done ops =>
    cases h
    omega

theorem Kind.handle_waits (h : (kind.handle beyond st p).ret = .ok 0)
    (hmode : (kind.handle beyond st p).st.mode ≠ .string) : kind.handle beyond st p = more st := by
  cases kind with
  | long => rw [Kind.handle, incremental_handleLong.waits p (behindPrefix_zero h),
      behindPrefix_more]
  | osc => rw [Kind.handle, (handleOSC_waits (behindPrefix_zero h) hmode).1, behindPrefix_more]
  | oneMore =>
    rw [Kind.handle] at h ⊢
    split_ifs at h ⊢ with hp
    · rfl
    · simp at h
  | done ops => simp [Kind.handle] at h

theorem Kind.handle_beyond (hnum : kind = .osc → Numbered (p ++ x))
    (h : (kind.handle beyond st p).ret = .ok 0)
    (hmode : (kind.handle beyond st p).st.mode ≠ .string)
    (hr : (kind.handle beyond st (p ++ x)).ret = .ok r) (hne : r ≠ 0) : p.length + 2 < r := by
  cases kind with
  | long =>
    obtain ⟨n, hn, rfl, hret⟩ := behindPrefix_ok hr hne
    have hlt := incremental_handleLong.beyond p x n (behindPrefix_zero h) hret hn
    omega
  | osc =>
    obtain ⟨n, hn, rfl, hret⟩ := behindPrefix_ok hr hne
    have hlt := handleOSC_beyond (hnum rfl) (behindPrefix_zero h) hmode hret hn
    omega
  | oneMore =>
    have hp : p = [] := by
      by_contra hp
      simp [Kind.handle, hp] at h
    rw [hp, Kind.handle] at hr
    split_ifs at hr with hx
    · exact absurd (Except.ok.inj hr).symm hne
    · cases hr
      simp [hp]
  | done ops => simp [Kind.handle] at h

end Vt100Prefixes
