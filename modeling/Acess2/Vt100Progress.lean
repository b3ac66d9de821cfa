import Acess2.Vt100Bounds
import Acess2.Vt100Chunks

/-! What the VT100 parser returns to its drivers.
They advance by the number it returns and insist that this is not zero. Whatever has been fed to
the parser, a call takes some of the bytes it is given and no more, but for four kinds of escape
sequences: one that does not end within the cache, one whose arguments cannot be held, an OSC
sequence that is cut behind its number, and one that has a terminal answer which echoes its input,
so that the parser is entered again. -/
namespace Vt100Progress

open Strtoi (kernelIsdigit)
open List Nat Vt100 Vt100Bounds Vt100Chunks Vt100Prefixes

/-- The arguments or the number of a sequence leave their room. -/
def Undefined : List UInt8 → Prop
  | _ :: c :: u => c = 91 ∧ LongUndefined u ∨ c = 93 ∧ 2 ^ 31 ≤ number (u.takeWhile kernelIsdigit)
  | _ => False

/-- `\e[c` -/
def Requests : List UInt8 → Prop
  | _ :: c :: u => c = 91 ∧ Commands (· = 'c') u ∧ argument u 0 = 0
  | _ => False

/-- The bytes of the number of an OSC sequence, and of its separator, once another byte ends it -/
def numberLength (u : List UInt8) : ℕ :=
  match u.dropWhile kernelIsdigit with
  | [] => 0
  | c :: _ => (u.takeWhile kernelIsdigit).length + if c = semicolon then 1 else 0

/-- The number of an OSC sequence and its separator are within the first `old` bytes. -/
def Cut (old : ℕ) : List UInt8 → Prop
  | _ :: c :: u => c = 93 ∧ numberLength u ≠ 0 ∧ numberLength u + 2 ≤ old
  | _ => False

section

variable (beyond : ℕ → UInt32) (echo : Bool)

/-- `Term_HandleVT100` of a terminal that echoes its input or does not -/
def call (st : VT100State) (buf : List UInt8) : Parsed ℤ :=
  let parsed := handleVT100 beyond st buf
  if echo && parsed.ops.any Display.sends then { parsed with ret := .error .reentered } else parsed

/-- The states that feeding bytes to `Term_HandleVT100` leads to -/
inductive Reachable : VT100State → Prop
  | start : Reachable .init
  | call {st : VT100State} {buf : List UInt8} {r : ℤ} : Reachable st → buf ≠ [] →
      (call beyond echo st buf).ret = .ok r → Reachable (call beyond echo st buf).st

def Advances (p : Parsed ℤ) (len : ℕ) : Prop := ∃ r, p.ret = .ok r ∧ r ≠ 0 ∧ r.natAbs ≤ len

structure Irregular (st : VT100State) (buf : List UInt8) : Prop where
  mode : st.mode = .normal
  escape : st.cache ≠ [] ∨ buf.headD 0 = esc
  sequence : maxEscapeLen ≤ st.cache.length ∨ Undefined (sequence st buf) ∨
    Cut st.cache.length (sequence st buf) ∨ echo = true ∧ Requests (sequence st buf)

/-- The loop of `VT_int_PutString`: the state and the bytes that are left where it ends -/
def putString (st : VT100State) (buf : List UInt8) : VT100State × List UInt8 :=
  match (call beyond echo st buf).ret with
  | .error _ => (st, buf)
  | .ok escLen =>
    if buf = [] ∨ escLen.natAbs = 0 then (st, buf)
    else putString (call beyond echo st buf).st (buf.drop escLen.natAbs)
termination_by buf.length
decreasing_by
  rename_i h
  have hpos := length_pos_iff.mpr (not_or.mp h).1
  rw [length_drop]
  omega

end

variable {beyond : ℕ → UInt32} {echo : Bool} {st : VT100State} {buf d p u w x : List UInt8} {r : ℤ}
  {n : ℕ} {c e : UInt8} {kind : Kind}

theorem readNumber_error_iff (hd : number d < 2 ^ 31) : (∃ f, readNumber (number d) u = .error f) ↔
    2 ^ 31 ≤ number (d ++ u.takeWhile kernelIsdigit) := by
  induction u generalizing d with
  | nil => simpa [readNumber] using hd
  | cons c u ih =>
    rw [readNumber]
    split_ifs with hdigit
    · rw [takeWhile_cons_of_pos hdigit, ← singleton_append, ← append_assoc]
      dsimp only
      rw [← number_snoc]
      split_ifs with hvalue
      · exact ih hvalue
      · exact iff_of_true ⟨_, rfl⟩ ((Nat.not_lt.mp hvalue).trans (number_le_append ..))
    · rw [takeWhile_cons_of_neg hdigit, append_nil]
      exact iff_of_false (by simp) (Nat.not_le.mpr hd)

theorem handleOSC_error_iff : (∃ f, (handleOSC st u).ret = .error f) ↔
    2 ^ 31 ≤ number (u.takeWhile kernelIsdigit) := by
  have hread := readNumber_error_iff (d := []) (u := u) (by decide)
  rw [nil_append] at hread
  rw [← hread, handleOSC]
  split_ifs with hshort
  · refine iff_of_false (by simp [more]) (mt hread.mp (Nat.not_le.mpr ?_))
    rcases u with _ | ⟨c, _ | ⟨_, _⟩⟩
    · decide
    · have hbyte := c.toNat_lt
      cases hdigit : kernelIsdigit c
      · simp [hdigit, number]
      · simp only [takeWhile_cons, hdigit, if_true, takeWhile_nil, number, foldl_cons, foldl_nil]
        omega
    · simp only [length_cons] at hshort
      omega
  · change _ ↔ ∃ f, readNumber 0 u = .error f
    rcases readNumber 0 u with f | ⟨ps, _ | ⟨d, rest⟩⟩
    · simp
    · simp [more]
    · dsimp only
      split_ifs <;> simp

variable (beyond) in
/-- The sequences that are neither `\e[` nor `\e]` -/
theorem handleShort_other (hlong : c ≠ 91) (hosc : c ≠ 93) : ∃ kind : Kind,
    (kind = .oneMore ∨ ∃ ops, kind = .done ops) ∧
      ∀ st e p, handleShort beyond st (e :: c :: p) = kind.handle beyond st p := by
  obtain ⟨kind, hkind, hshort⟩ := handleShort_kind beyond c
  refine ⟨kind, ?_, hshort⟩
  cases kind with
  | long => exact absurd (hkind.1 rfl) hlong
  | osc => exact absurd (hkind.2 rfl) hosc
  | oneMore => exact .inl rfl
  | done ops => exact .inr ⟨ops, rfl⟩

theorem behindPrefix_error_iff {parsed : Parsed ℕ} :
    (∃ f, parsed.behindPrefix.ret = .error f) ↔ ∃ f, parsed.ret = .error f := by
  obtain ⟨_ | _, _, _⟩ := parsed <;> simp [Parsed.behindPrefix, Except.map]

theorem behindPrefix_returns {parsed : Parsed ℕ} (h : parsed.behindPrefix.ret = .ok n) :
    ∃ m, parsed.ret = .ok m ∧ n = if m = 0 then 0 else m + 2 := by
  obtain ⟨_ | m, _, _⟩ := parsed
  · cases h
  · exact ⟨m, rfl, (Except.ok.inj h).symm⟩

variable (beyond st) in
theorem handleShort_error_iff (hw : 1 < w.length) :
    (∃ f, (handleShort beyond st w).ret = .error f) ↔ Undefined w := by
  match w with
  | [] | [_] => simp at hw
  | e :: c :: u =>
    by_cases hlong : c = 91
    · subst hlong
      have herror : (∃ f, (handleShort beyond st (e :: 91 :: u)).ret = .error f) ↔ _ :=
        behindPrefix_error_iff.trans handleLong_error_iff
      simpa [Undefined] using herror
    by_cases hosc : c = 93
    · subst hosc
      have herror : (∃ f, (handleShort beyond st (e :: 93 :: u)).ret = .error f) ↔ _ :=
        behindPrefix_error_iff.trans handleOSC_error_iff
      simpa [Undefined] using herror
    obtain ⟨kind, hkind, hshort⟩ := handleShort_other beyond hlong hosc
    refine iff_of_false ?_ (by simp [Undefined, hlong, hosc])
    rw [hshort]
    rcases hkind with rfl | ⟨ops, rfl⟩
    · rw [Kind.handle]
      split_ifs <;> simp [more]
    · simp [Kind.handle]

theorem handleLong_zero (st' : VT100State) (h : (handleLong beyond st u).ret = .ok 0) :
    (handleLong beyond st' u).ret = .ok 0 := by
  have hrest := parseLong_rest u
  rw [handleLong_eq] at h ⊢
  generalize parseLong u = part at *
  obtain ⟨q, f | _ | seq⟩ := part
  · cases h
  · rfl
  · have hret := handleCommand_ret h
    have hlt := hrest seq rfl
    omega

theorem handleOSC_quiet (st st' : VT100State) :
    (handleOSC st u).ret = (handleOSC st' u).ret ∧ (handleOSC st u).ops = [] := by
  simp only [handleOSC]
  split_ifs
  · exact ⟨rfl, rfl⟩
  · rcases readNumber 0 u with f | ⟨ps, _ | ⟨d, rest⟩⟩
    · exact ⟨rfl, rfl⟩
    · exact ⟨rfl, rfl⟩
    · dsimp only
      split_ifs <;> exact ⟨rfl, rfl⟩

/-- Whether a sequence ends does not depend on the state. -/
theorem handle_zero (st' : VT100State) (h : (kind.handle beyond st p).ret = .ok 0) :
    (kind.handle beyond st' p).ret = .ok 0 := by
  cases kind with
  | long =>
    have hlong := handleLong_zero st' (behindPrefix_zero h)
    simp only [Kind.handle, Parsed.behindPrefix, hlong]
    rfl
  | osc =>
    have hosc := behindPrefix_zero h
    rw [(handleOSC_quiet st st').1] at hosc
    simp only [Kind.handle, Parsed.behindPrefix, hosc]
    rfl
  | oneMore =>
    rw [Kind.handle] at h ⊢
    split_ifs at h ⊢
    · rfl
    · cases h
  | done ops => cases h

/-- What is in the cache has not ended, whatever the state is. -/
def Unfinished (beyond : ℕ → UInt32) (w : List UInt8) : Prop :=
  w.length ≤ 1 ∨ ∀ st, (handleShort beyond st w).ret = .ok 0

theorem unfinished_of_zero (h : (handleShort beyond st w).ret = .ok 0) : Unfinished beyond w := by
  match w with
  | [] => exact .inl (zero_le _)
  | [_] => exact .inl (le_refl _)
  | e :: c :: p =>
    obtain ⟨kind, -, hkind⟩ := handleShort_kind beyond c
    rw [hkind] at h
    right
    intro st'
    rw [hkind]
    exact handle_zero st' h

theorem handlePlain_st : (handlePlain st buf).st = st := by
  simp only [handlePlain]
  split_ifs <;> rfl

theorem handleString_cache : (handleString st buf).st.cache = st.cache := by
  simp only [handleString]
  split_ifs <;> rfl

theorem conclude_unfinished {old : ℕ} (h : (conclude beyond st old w).ret = .ok r) :
    Unfinished beyond (conclude beyond st old w).st.cache := by
  rw [conclude] at h ⊢
  split_ifs at h ⊢ with hone
  · exact .inl hone
  cases hret : (handleShort beyond st w).ret with
  | error f => simp [hret] at h
  | ok n =>
    simp only [hret] at h ⊢
    split_ifs at h ⊢ with hzero
    · exact unfinished_of_zero (hzero ▸ hret)
    · exact .inl (zero_le _)

theorem call_st : (call beyond echo st buf).st = (handleVT100 beyond st buf).st := by
  rw [call]
  split_ifs <;> rfl

theorem call_ok (h : (call beyond echo st buf).ret = .ok r) :
    (handleVT100 beyond st buf).ret = .ok r := by
  rw [call] at h
  split_ifs at h
  exact h

theorem Reachable.unfinished (h : Reachable beyond echo st) : Unfinished beyond st.cache := by
  induction h with
  | start => exact .inl (zero_le _)
  | @call st buf r hreach hbuf hret ih =>
    rw [call_st]
    replace hret := call_ok hret
    rw [handleVT100] at hret ⊢
    cases hmode : st.mode with
    | ignore => exact ih
    | string =>
      dsimp only
      rwa [handleString_cache]
    | normal =>
      simp only [hmode] at hret ⊢
      split_ifs at hret ⊢
      · rcases escape_cases beyond st hbuf with ⟨-, heq⟩ | ⟨-, -, heq⟩
        · rw [heq]
          exact .inl (zero_le _)
        · rw [heq] at hret ⊢
          exact conclude_unfinished hret
      · rwa [handlePlain_st]

theorem handleOSC_length (h : (handleOSC st u).ret = .ok n) (hlen : ¬ u.length < 2) :
    n = numberLength u := by
  rw [handleOSC, if_neg hlen] at h
  rcases hread : readNumber 0 u with f | ⟨ps, _ | ⟨c, rest⟩⟩
  · simp [hread] at h
  · simp only [hread, more] at h
    rw [numberLength, ← readNumber_rest hread, ← Except.ok.inj h]
  · have hrest := readNumber_rest hread
    have hparts := congrArg length (takeWhile_append_dropWhile (p := kernelIsdigit) (l := u))
    rw [length_append, ← hrest, length_cons] at hparts
    simp only [hread, numberLength, ← hrest] at h ⊢
    split_ifs at h ⊢ <;> obtain rfl := Except.ok.inj h <;> first | contradiction | omega

theorem Cut.two_lt {old : ℕ} (h : Cut old w) : 2 < old := by
  match w with
  | [] | [_] => exact h.elim
  | _ :: _ :: _ =>
    obtain ⟨-, hne, hle⟩ := h
    omega

theorem handleOSC_behind (hx : x ≠ []) (hr : (handleOSC st (p ++ x)).behindPrefix.ret = .ok n) :
    n ≠ 0 ∧ n ≤ p.length + 2 ↔ Cut (p.length + 2) (e :: 93 :: (p ++ x)) := by
  obtain ⟨m, hret, hn⟩ := behindPrefix_returns hr
  have hpos := length_pos_iff.mpr hx
  rw [hn, Cut]
  by_cases hshort : (p ++ x).length < 2
  · rw [handleOSC, if_pos hshort] at hret
    obtain rfl := Except.ok.inj hret
    rw [length_append] at hshort
    exact iff_of_false (by simp) fun h => by omega
  · rw [← handleOSC_length hret hshort]
    by_cases hm : m = 0 <;> simp [hm]

/-- What ends a sequence is in the new bytes, unless the sequence is cut. -/
theorem handleShort_behind (hwait : Unfinished beyond w) (hx : x ≠ [])
    (hr : (handleShort beyond st (w ++ x)).ret = .ok n) :
    n ≠ 0 ∧ n ≤ w.length ↔ Cut w.length (w ++ x) := by
  match w with
  | [] => exact iff_of_false (by simp) fun h => absurd h.two_lt (by simp)
  | [e] =>
    refine iff_of_false ?_ fun h => absurd h.two_lt (by simp)
    rintro ⟨hne, hle⟩
    obtain ⟨c, rest, rfl⟩ := exists_cons_of_ne_nil hx
    obtain ⟨kind, -, hkind⟩ := handleShort_kind beyond c
    rw [singleton_append, hkind] at hr
    have hbounds := (Kind.handle_bounds hr hne).1
    simp only [length_singleton] at hle
    omega
  | e :: c :: p =>
    have hzero := (hwait.resolve_left (by simp)) st
    by_cases hlong : c = 91
    · subst hlong
      refine iff_of_false ?_ (by simp [Cut])
      rintro ⟨hne, hle⟩
      obtain ⟨m, hm, rfl, hret⟩ := behindPrefix_ok hr hne
      have hlt := incremental_handleLong.beyond p _ m (behindPrefix_zero hzero) hret hm
      simp only [length_cons] at hle
      omega
    by_cases hosc : c = 93
    · subst hosc
      exact handleOSC_behind hx hr
    obtain ⟨kind, hkind, hshort⟩ := handleShort_other beyond hlong hosc
    rw [hshort] at hzero
    rw [cons_append, cons_append, hshort] at hr
    refine iff_of_false ?_ (by simp [Cut, hosc])
    rcases hkind with rfl | ⟨ops, rfl⟩
    · have hp : p = [] := by
        by_contra hp
        rw [Kind.handle, if_neg hp] at hzero
        cases hzero
      rw [Kind.handle, if_neg (by simp [hx])] at hr
      cases hr
      simp [hp]
    · cases hzero

theorem selectGraphic_sends {st : VT100State} (n : ℕ) :
    (selectGraphic beyond st n).2.toList.any Display.sends = false := by
  simp only [selectGraphic]
  split_ifs <;> rfl

theorem selectGraphics_sends {args : Fin 6 → ℕ} {i : ℕ} {ops : List Display} :
    (selectGraphics beyond args n i st ops).ops.any Display.sends = ops.any Display.sends := by
  induction n generalizing i st ops with
  | zero => rfl
  | succ n ih =>
    rw [selectGraphics]
    split_ifs with hi
    · rw [ih, any_append, selectGraphic_sends, Bool.or_false]
    · rfl

variable (beyond st) in
theorem command_sends {seq : Sequence} : (command beyond st seq).ops.any Display.sends ↔
    Char.ofUInt8 seq.c = 'c' ∧ seq.args 0 = 0 := by
  simp only [command]
  generalize Char.ofUInt8 seq.c = c
  split
  all_goals try split_ifs
  all_goals simp_all [Effect.call, Effect.nothing, Display.sends, selectGraphics_sends]

theorem privateMode_sends {seq : Sequence} :
    (privateMode st seq).ops.any Display.sends = false := by
  simp only [privateMode]
  split
  all_goals try split_ifs
  all_goals rfl

theorem handleCommand_sends {len : ℕ} {question : Bool} {seq : Sequence} :
    (handleCommand beyond st len question seq).ops.any Display.sends ↔
      question = false ∧ Char.ofUInt8 seq.c = 'c' ∧ seq.args 0 = 0 := by
  rw [handleCommand]
  cases halpha : isalpha seq.c with
  | false =>
    refine iff_of_false (by simp) ?_
    rintro ⟨-, hc, -⟩
    simp [isalpha_of_char hc] at halpha
  | true =>
    rw [← command_sends beyond st]
    cases question with
    | true => simp only [Bool.not_true, Bool.false_eq_true, if_false, if_true, privateMode_sends,
        Bool.true_eq_false, false_and]
    | false => simp only [Bool.not_true, Bool.false_eq_true, if_false, true_and]

theorem handleLong_sends (h : (handleLong beyond st u).ret = .ok n) :
    (handleLong beyond st u).ops.any Display.sends ↔ Commands (· = 'c') u ∧ argument u 0 = 0 := by
  obtain ⟨hreads, hmark⟩ := parseLong_reads u
  rw [handleLong_eq] at h ⊢
  generalize parseLong u = part at *
  obtain ⟨q, f | _ | seq⟩ := part
  · cases h
  · exact iff_of_false (by simp [finishLong, more]) fun hc => no_command hreads.2.2 hc.1
  obtain rfl : q = _ := hmark
  obtain ⟨-, -, hsplit, -, hargs⟩ := hreads
  rw [finishLong, handleCommand_sends, decide_eq_false_iff_not]
  by_cases hq : u.head? = some questionMark
  · simp [Commands, hq]
  rw [behindMark, if_neg hq] at hsplit hargs
  have hfirst : seq.args 0 = argument u 0 := hargs 0
  rw [commands_iff seq hsplit, ← hfirst, and_assoc]

theorem handleShort_sends (hw : 1 < w.length) (h : (handleShort beyond st w).ret = .ok n) :
    (handleShort beyond st w).ops.any Display.sends ↔ Requests w := by
  match w with
  | [] | [_] => simp at hw
  | e :: c :: u =>
    by_cases hlong : c = 91
    · subst hlong
      have hprefix : (handleLong beyond st u).behindPrefix.ret = .ok n := h
      obtain ⟨m, hret, -⟩ := behindPrefix_returns hprefix
      exact (handleLong_sends hret).trans (and_iff_right rfl).symm
    · refine iff_of_false ?_ (by simp [Requests, hlong])
      simp only [handleShort, getD_cons_succ, getD_cons_zero]
      split
      case h_1 hc =>
        have hbyte : c.toNat = 91 := congrArg Char.toNat hc
        exact absurd (UInt8.toNat_inj.mp hbyte) hlong
      case h_2 => simp [Parsed.behindPrefix, (handleOSC_quiet st st).2]
      all_goals try split_ifs
      all_goals simp [more, Display.sends]

theorem handleString_returns (st : VT100State) (buf : List UInt8) :
    ∃ r, (handleString st buf).ret = .ok r ∧ (handleString st buf).ops.any Display.sends =
      false := by
  simp only [handleString]
  cases st.stringType <;> split_ifs <;> exact ⟨_, rfl, rfl⟩

theorem handlePlain_returns (st : VT100State) (buf : List UInt8) :
    ∃ r, (handlePlain st buf).ret = .ok r ∧ (handlePlain st buf).ops.any Display.sends = false := by
  simp only [handlePlain]
  split_ifs <;> exact ⟨_, rfl, rfl⟩

theorem call_advances_iff (hbuf : buf ≠ []) : Advances (call beyond echo st buf) buf.length ↔
    (∃ r, (handleVT100 beyond st buf).ret = .ok r ∧ r ≠ 0) ∧
      ¬ (echo = true ∧ (handleVT100 beyond st buf).ops.any Display.sends) := by
  rw [call, ← Bool.and_eq_true]
  split_ifs with hsends
  · simp [Advances, hsends]
  · rw [and_iff_left hsends]
    refine exists_congr fun r => and_congr_right fun hret => and_iff_left ?_
    exact handleVT100_le hbuf hret

theorem conclude_ops {old : ℕ} (hone : ¬ w.length ≤ 1) :
    (conclude beyond st old w).ops = (handleShort beyond st w).ops := by
  rw [conclude, if_neg hone]
  dsimp only
  split
  · rfl
  · split_ifs <;> rfl

theorem conclude_ok {old : ℕ} (hone : ¬ w.length ≤ 1) (hold : old < w.length) :
    (∃ r, (conclude beyond st old w).ret = .ok r ∧ r ≠ 0) ↔
      ∃ n, (handleShort beyond st w).ret = .ok n ∧ ¬ (n ≠ 0 ∧ n ≤ old) := by
  rw [conclude, if_neg hone]
  dsimp only
  split
  next f hret => simp [hret]
  next n hret =>
    simp only [hret, Except.ok.injEq, exists_eq_left']
    split_ifs with hzero hle
    · exact iff_of_true ⟨_, rfl, by omega⟩ (by simp [hzero])
    · exact iff_of_false (by simp) (by simp [hzero, hle])
    · exact iff_of_true ⟨_, rfl, by omega⟩ (by simp [hle])

theorem conclude_advances (hwait : Unfinished beyond p) (hx : x ≠ []) :
    (∃ r, (conclude beyond st p.length (p ++ x)).ret = .ok r ∧ r ≠ 0) ∧
      ¬ (echo = true ∧ (conclude beyond st p.length (p ++ x)).ops.any Display.sends) ↔
    ¬ (Undefined (p ++ x) ∨ Cut p.length (p ++ x) ∨ echo = true ∧ Requests (p ++ x)) := by
  have hpos := length_pos_iff.mpr hx
  have hlen : (p ++ x).length = p.length + x.length := length_append
  by_cases hone : (p ++ x).length ≤ 1
  · obtain rfl : p = [] := length_eq_zero_iff.mp (by omega)
    obtain ⟨c, rfl⟩ := length_eq_one_iff.mp (show x.length = 1 by omega)
    simp [conclude, Undefined, Cut, Requests]
  have herror := handleShort_error_iff beyond st (Nat.not_le.mp hone)
  rw [conclude_ops hone, conclude_ok hone (by omega)]
  cases hret : (handleShort beyond st (p ++ x)).ret with
  | error f => simp [← herror, hret]
  | ok n =>
    have hdefined : ¬ Undefined (p ++ x) := by simp [← herror, hret]
    rw [← handleShort_behind hwait hx hret, ← handleShort_sends (Nat.not_le.mp hone) hret]
    simp only [hdefined, false_or, not_or, Except.ok.injEq, exists_eq_left']

theorem call_advances (hreach : Reachable beyond echo st) (hbuf : buf ≠ []) :
    Advances (call beyond echo st buf) buf.length ↔ ¬ Irregular echo st buf := by
  rw [call_advances_iff hbuf]
  have hsilent {parsed : Parsed ℤ} (hirregular : ¬ Irregular echo st buf)
      (h : ∃ r, parsed.ret = .ok r ∧ parsed.ops.any Display.sends = false)
      (hprogress : ∀ r, parsed.ret = .ok r → r ≠ 0) :
      ((∃ r, parsed.ret = .ok r ∧ r ≠ 0) ∧ ¬ (echo = true ∧ parsed.ops.any Display.sends)) ↔
        ¬ Irregular echo st buf := by
    obtain ⟨r, hret, hops⟩ := h
    exact iff_of_true ⟨⟨r, hret, hprogress r hret⟩, by simp [hops]⟩ hirregular
  rw [handleVT100]
  cases hmode : st.mode with
  | ignore =>
    refine hsilent (fun h => ?_) ⟨1, rfl, rfl⟩ fun r hr => ?_
    · exact absurd (hmode.symm.trans h.mode) (by decide)
    · cases hr
      exact one_ne_zero
  | string =>
    refine hsilent (fun h => ?_) (handleString_returns st buf) fun r => handleString_progress hbuf
    exact absurd (hmode.symm.trans h.mode) (by decide)
  | normal =>
    dsimp only
    split_ifs with hesc
    · have hirregular : Irregular echo st buf ↔ _ := ⟨(·.sequence), fun h => ⟨hmode, hesc, h⟩⟩
      rw [hirregular]
      rcases escape_cases beyond st hbuf with ⟨hfull, heq⟩ | ⟨hlt, -, heq⟩
      · simp [heq, hfull]
      · have hroom : room st ≠ 0 ∧ buf.take (room st) ≠ [] := by
          rw [Vt100Chunks.sequence, length_append] at hlt
          rw [← length_pos_iff]
          exact ⟨fun hzero => by simp [hzero] at hlt, by omega⟩
        have hfits : ¬ maxEscapeLen ≤ st.cache.length := by
          have hne := hroom.1
          rw [room] at hne
          omega
        simp only [hfits, false_or, heq]
        exact conclude_advances hreach.unfinished hroom.2
    · refine hsilent (fun h => hesc h.escape) (handlePlain_returns st buf) fun r => ?_
      exact handlePlain_progress hbuf fun hc => hesc (.inr hc)

/-- The loop takes everything, or ends before a call that is not regular. -/
theorem putString_stops (hreach : Reachable beyond echo st) :
    (putString beyond echo st buf).2 = [] ∨
      Irregular echo (putString beyond echo st buf).1 (putString beyond echo st buf).2 := by
  fun_induction putString beyond echo st buf with
  | case1 st buf f hret =>
    by_contra hno
    obtain ⟨hbuf, hreg⟩ := not_or.mp hno
    obtain ⟨r, hok, -⟩ := (call_advances hreach hbuf).mpr hreg
    simp [hret] at hok
  | case2 st buf escLen hret hstop =>
    by_contra hno
    obtain ⟨hbuf, hreg⟩ := not_or.mp hno
    obtain ⟨r, hok, hne, -⟩ := (call_advances hreach hbuf).mpr hreg
    obtain rfl : escLen = r := Except.ok.inj (hret.symm.trans hok)
    exact hne (Int.natAbs_eq_zero.mp (hstop.resolve_left hbuf))
  | case3 st buf escLen hret hgo ih => exact ih (hreach.call (not_or.mp hgo).1 hret)

end Vt100Progress
