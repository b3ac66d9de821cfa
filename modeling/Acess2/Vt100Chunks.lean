import Acess2.Vt100Prefixes

/-! Feeding the VT100 parser a stream in chunks.
The driver is `Term_HandleOutput` of the terminal application: it advances by what the parser
returns, and what is to be shown as text goes to the screen. -/
namespace Vt100Chunks

open List Nat Option Vt100 Vt100Prefixes

inductive Event where
  | text (c : UInt8)
  | op (d : Display)
  | fault (f : Fault)
  deriving DecidableEq

/-- The events up to some point, and what is there unless a fault was met before -/
structure Trace (α : Type) where
  events : List Event
  value : Option α
  deriving DecidableEq

variable {α β γ : Type}

def Trace.pure (a : α) : Trace α := ⟨[], some a⟩

def Trace.bind (x : Trace α) (f : α → Trace β) : Trace β :=
  match x.value with
  | none => ⟨x.events, none⟩
  | some a => ⟨x.events ++ (f a).events, (f a).value⟩

variable (beyond : ℕ → UInt32)

/-- A carriage return and a newline that come together are one newline, counted as two. -/
def counted (st : VT100State) (buf : List UInt8) (ops : List Display) : List Display :=
  if st.mode = .normal ∧ st.cache = [] ∧ buf.take 2 = [0x0d, 0x0a] then
    [.moveCursor 0 intMin, .newline]
  else ops

def turn (st : VT100State) (buf : List UInt8) : Trace (VT100State × ℕ) :=
  let parsed := handleVT100 beyond st buf
  let asked := (counted st buf parsed.ops).map Event.op
  match parsed.ret with
  | .error f => ⟨asked ++ [.fault f], none⟩
  | .ok escLen =>
    let text := if escLen < 0 then (buf.take escLen.natAbs).map Event.text else []
    ⟨asked ++ text, some (parsed.st, escLen.natAbs)⟩

/-- The loop of `Term_HandleOutput`. A turn that takes no byte has emptied the cache, so the next
one does. -/
def outputLoop : (fuel : ℕ) → VT100State → List UInt8 → Trace VT100State
  | 0, st, _ => .pure st
  | fuel + 1, st, buf =>
    if buf = [] then .pure st
    else (turn beyond st buf).bind fun next => outputLoop fuel next.1 (buf.drop next.2)

def handleOutput (st : VT100State) (buf : List UInt8) : Trace VT100State :=
  outputLoop beyond (2 * buf.length + 2) st buf

def handleChunks : VT100State → List (List UInt8) → Trace VT100State
  | st, [] => .pure st
  | st, chunk :: chunks => (handleOutput beyond st chunk).bind fun st => handleChunks st chunks

variable {a : α} {f : α → Trace β} {k : β → Trace γ}

@[simp] theorem pure_bind : (Trace.pure a).bind f = f a := rfl

@[simp] theorem bind_pure (x : Trace α) : x.bind Trace.pure = x := by
  obtain ⟨events, value⟩ := x
  cases value with
  | none => rfl
  | some a => simp [Trace.bind, Trace.pure]

theorem bind_assoc (x : Trace α) : (x.bind f).bind k = x.bind fun a => (f a).bind k := by
  obtain ⟨events, value⟩ := x
  cases value with
  | none => rfl
  | some a =>
    cases h : (f a).value with
    | none => simp [Trace.bind, h]
    | some b => simp [Trace.bind, h]

variable {x : Trace α}

theorem bind_congr {g : α → Trace β} (h : ∀ a, x.value = some a → f a = g a) :
    x.bind f = x.bind g := by
  obtain ⟨events, value⟩ := x
  cases value with
  | none => rfl
  | some a => simp only [Trace.bind, h a rfl]

theorem bind_value (h : x.value = some a) : (x.bind f).value = (f a).value := by
  simp only [Trace.bind, h]

variable {beyond} {st : VT100State} {buf : List UInt8}

def budget (st : VT100State) (buf : List UInt8) : ℕ :=
  2 * buf.length + if maxEscapeLen ≤ st.cache.length then 1 else 0

theorem turn_value {next : VT100State × ℕ} (h : (turn beyond st buf).value = some next) :
    ∃ r, (handleVT100 beyond st buf).ret = .ok r ∧
      next = ((handleVT100 beyond st buf).st, r.natAbs) := by
  cases hret : (handleVT100 beyond st buf).ret with
  | error f => simp [turn, hret] at h
  | ok r => exact ⟨r, rfl, by simpa [turn, hret] using h.symm⟩

theorem budget_turn (hbuf : buf ≠ []) {next : VT100State × ℕ}
    (h : (turn beyond st buf).value = some next) :
    budget next.1 (buf.drop next.2) < budget st buf := by
  have hpos : 0 < buf.length := length_pos_iff.mpr hbuf
  obtain ⟨r, hret, rfl⟩ := turn_value h
  simp only [budget, length_drop]
  rcases handleVT100_progress hbuf hret with hr | ⟨hfull, hempty⟩
  · split_ifs <;> omega
  · have hroom : ¬ maxEscapeLen ≤ ([] : List UInt8).length := by decide
    rw [if_pos hfull, hempty, if_neg hroom]
    omega

theorem outputLoop_fuel {fuel fuel' : ℕ} (h : budget st buf < fuel) (h' : budget st buf < fuel') :
    outputLoop beyond fuel st buf = outputLoop beyond fuel' st buf := by
  induction fuel generalizing fuel' st buf with
  | zero => omega
  | succ fuel ih =>
    cases fuel' with
    | zero => omega
    | succ fuel' =>
      by_cases hbuf : buf = []
      · simp only [outputLoop, if_pos hbuf]
      simp only [outputLoop, if_neg hbuf]
      cases hvalue : (turn beyond st buf).value with
      | none => simp only [Trace.bind, hvalue]
      | some next =>
        have hless := budget_turn hbuf hvalue
        have hrest : outputLoop beyond fuel next.1 (buf.drop next.2) =
            outputLoop beyond fuel' next.1 (buf.drop next.2) := by
          apply ih
          · omega
          · omega
        simp only [Trace.bind, hvalue, hrest]

theorem handleOutput_nil : handleOutput beyond st [] = .pure st := rfl

theorem handleOutput_eq (hbuf : buf ≠ []) : handleOutput beyond st buf =
      (turn beyond st buf).bind fun next => handleOutput beyond next.1 (buf.drop next.2) := by
  have hbudget (st : VT100State) (buf : List UInt8) : budget st buf < 2 * buf.length + 2 := by
    rw [budget]
    split_ifs <;> omega
  rw [handleOutput, outputLoop, if_neg hbuf]
  cases hvalue : (turn beyond st buf).value with
  | none => simp only [Trace.bind, hvalue]
  | some next =>
    have hless := budget_turn hbuf hvalue
    have hstart := hbudget st buf
    have hrest : outputLoop beyond (2 * buf.length + 1) next.1 (buf.drop next.2) =
        handleOutput beyond next.1 (buf.drop next.2) :=
      outputLoop_fuel (by omega) (hbudget ..)
    simp only [Trace.bind, hvalue, hrest]

variable {a b w x : List UInt8} {old : ℕ}

/-- What becomes of the bytes `w` of a sequence, of which `old` had been cached before -/
def conclude (beyond : ℕ → UInt32) (st : VT100State) (old : ℕ) (w : List UInt8) : Parsed ℤ :=
  if w.length ≤ 1 then ⟨.ok 1, { st with cache := w }, []⟩
  else
    let short := handleShort beyond st w
    match short.ret with
    | .error f => ⟨.error f, { short.st with cache := w }, short.ops⟩
    | .ok ret =>
      if ret = 0 then ⟨.ok (w.length - old), { short.st with cache := w }, short.ops⟩
      else if ret ≤ old then ⟨.error .panic, { short.st with cache := w }, short.ops⟩
      else ⟨.ok (ret - old), { short.st with cache := [] }, short.ops⟩

def room (st : VT100State) : ℕ := maxEscapeLen - st.cache.length

theorem handleEscape_eq (hroom : 0 < room st) (ha : a ≠ []) :
    handleEscape beyond st a = conclude beyond { st with cache := [] } st.cache.length
      (st.cache ++ a.take (room st)) := by
  have hpos := length_pos_iff.mpr ha
  have htake : a.take (min (room st) a.length) = a.take (room st) := by
    rw [take_eq_take_iff]
    omega
  have hnew : min (room st) a.length ≠ 0 := by omega
  have hlen : ((st.cache ++ a.take (room st)).length : ℤ) - st.cache.length =
      ((min (room st) a.length : ℕ) : ℤ) := by
    rw [length_append, length_take]
    omega
  rw [room] at htake hnew hlen ⊢
  rw [handleEscape, htake, conclude]
  generalize handleShort beyond _ _ = short
  obtain ⟨f | ret, st', ops⟩ := short <;> simp only [if_neg hnew, hlen]

theorem handleShort_stable (hw : 1 < w.length) (h : (handleShort beyond st w).ret ≠ .ok 0) :
    handleShort beyond st (w ++ x) = handleShort beyond st w := by
  match w with
  | [] | [_] => simp at hw
  | e :: c :: p =>
    obtain ⟨kind, -, hkind⟩ := handleShort_kind beyond c
    rw [hkind] at h ⊢
    rw [cons_append, cons_append, hkind]
    exact Kind.handle_stable h

def Waits (beyond : ℕ → UInt32) (st : VT100State) (w : List UInt8) : Prop :=
  w.length ≤ 1 ∨ handleShort beyond st w = more st

theorem conclude_waits (h : Waits beyond st w) (hold : w.length ≤ 1 → old + 1 = w.length) :
    conclude beyond st old w = ⟨.ok (w.length - old), { st with cache := w }, []⟩ := by
  by_cases hone : w.length ≤ 1
  · have hnew : ((w.length : ℤ) - old) = 1 := by
      omega
    rw [conclude, if_pos hone, hnew]
  · rcases h with h | h
    · exact absurd h hone
    · simp only [conclude, if_neg hone, h, more, if_true]

theorem short_beyond (hw : w ≠ []) (hx : x ≠ []) (h : Waits beyond st w)
    (hmode : st.mode ≠ .string) (hnum : OscNumbered (w ++ x)) {r : ℕ}
    (hr : (handleShort beyond st (w ++ x)).ret = .ok r) (hne : r ≠ 0) : w.length < r := by
  match w with
  | [] => exact absurd rfl hw
  | [e] =>
    obtain ⟨c, p, rfl⟩ := exists_cons_of_ne_nil hx
    obtain ⟨kind, -, hkind⟩ := handleShort_kind beyond c
    rw [singleton_append, hkind] at hr
    exact (Kind.handle_bounds hr hne).1
  | e :: c :: p =>
    obtain ⟨kind, hosc, hkind⟩ := handleShort_kind beyond c
    have hwait : kind.handle beyond st p = more st := by
      rcases h with h | h
      · simp at h
      · rwa [hkind] at h
    rw [cons_append, cons_append, hkind] at hr
    refine Kind.handle_beyond (fun hk => hnum (hosc.2 hk)) ?_ ?_ hr hne
    · rw [hwait]
      rfl
    · rw [hwait]
      exact hmode

def account (p : Parsed ℤ) : Trace (VT100State × ℕ) :=
  match p.ret with
  | .error f => ⟨p.ops.map Event.op ++ [.fault f], none⟩
  | .ok escLen => ⟨p.ops.map Event.op, some (p.st, escLen.natAbs)⟩

def Joined (beyond : ℕ → UInt32) (st : VT100State) (a b : List UInt8) : Prop :=
  turn beyond st (a ++ b) = (turn beyond st a).bind fun first =>
      (turn beyond first.1 b).bind fun second => .pure (second.1, first.2 + second.2)

theorem account_conclude (hw : w ≠ []) (hx : x ≠ []) (h : Waits beyond st w)
    (hmode : st.mode ≠ .string) (hnum : OscNumbered (w ++ x)) (hold : old ≤ w.length) :
    account (conclude beyond st old (w ++ x)) =
      (account (conclude beyond st w.length (w ++ x))).bind fun next =>
        .pure (next.1, w.length - old + next.2) := by
  have hlen : ¬ (w ++ x).length ≤ 1 := by
    have hw := length_pos_iff.mpr hw
    have hx := length_pos_iff.mpr hx
    rw [length_append]
    omega
  simp only [conclude, if_neg hlen]
  cases hret : (handleShort beyond st (w ++ x)).ret with
  | error f => rfl
  | ok r =>
    by_cases hzero : r = 0
    · have hsub : (((w ++ x).length : ℤ) - old).natAbs =
          w.length - old + (((w ++ x).length : ℤ) - w.length).natAbs := by
        rw [length_append]
        omega
      simp only [if_pos hzero, account, Trace.bind, Trace.pure, append_nil, hsub]
    · have hlt := short_beyond hw hx h hmode hnum hret hzero
      have hsub : ((r : ℤ) - old).natAbs = w.length - old + ((r : ℤ) - w.length).natAbs := by omega
      have hle : ¬ r ≤ w.length := by omega
      have hle' : ¬ r ≤ old := by omega
      simp only [if_neg hzero, if_neg hle, if_neg hle', account, Trace.bind, Trace.pure,
        append_nil, hsub]

variable {ops : List Display}

theorem counted_busy (h : st.mode ≠ .normal ∨ st.cache ≠ []) : counted st a ops = ops := by
  apply if_neg
  rintro ⟨hmode, hcache, -⟩
  exact h.elim (· hmode) (· hcache)

theorem counted_head {c : UInt8} (hc : c ≠ 0x0d) : counted st (c :: a) ops = ops := by
  apply if_neg
  rintro ⟨-, -, htake⟩
  exact hc (cons_eq_cons.mp htake).1

theorem turn_escape (hmode : st.mode = .normal) (hesc : st.cache ≠ [] ∨ a.headD 0 = esc)
    (hret : ∀ r, (handleEscape beyond st a).ret = .ok r → 0 ≤ r) :
    turn beyond st a = account (handleEscape beyond st a) := by
  have hcounted (ops : List Display) : counted st a ops = ops := by
    rcases hesc with hesc | hesc
    · exact counted_busy (.inr hesc)
    match a with
    | [] => simp [counted]
    | c :: rest =>
      apply counted_head
      rw [headD_cons] at hesc
      rw [hesc]
      decide
  have hparsed : handleVT100 beyond st a = handleEscape beyond st a := by
    simp only [handleVT100, hmode, if_pos hesc]
  simp only [turn, hparsed, hcounted, account]
  cases h : (handleEscape beyond st a).ret with
  | error f => rfl
  | ok r => simp only [if_neg (Int.not_lt.mpr (hret r h)), append_nil]

theorem account_stable (hw : 1 < w.length) (h : (handleShort beyond st w).ret ≠ .ok 0) :
    account (conclude beyond st old (w ++ x)) = account (conclude beyond st old w) := by
  have hwx : ¬ (w ++ x).length ≤ 1 := by
    rw [length_append]
    omega
  simp only [conclude, if_neg hwx, if_neg (not_le.mpr hw), handleShort_stable hw h]
  cases hret : (handleShort beyond st w).ret with
  | error f => rfl
  | ok r =>
    have hne : r ≠ 0 := by
      rintro rfl
      exact h hret
    by_cases hold : r ≤ old
    · simp only [if_neg hne, if_pos hold, account]
    · simp only [if_neg hne, if_neg hold, account]

theorem conclude_zero (old : ℕ) (hw : 1 < w.length) (h : (handleShort beyond st w).ret = .ok 0) :
    conclude beyond st old w =
      ⟨.ok (w.length - old), { (handleShort beyond st w).st with cache := w },
        (handleShort beyond st w).ops⟩ := by
  simp only [conclude, if_neg (not_le.mpr hw), h, if_true]

theorem short_string (hw : 1 < w.length) (h : (handleShort beyond st w).ret = .ok 0)
    (hmore : handleShort beyond st w ≠ more st) : (handleShort beyond st w).st.mode = .string := by
  match w with
  | [] | [_] => simp at hw
  | e :: c :: p =>
    obtain ⟨kind, -, hkind⟩ := handleShort_kind beyond c
    rw [hkind] at h hmore ⊢
    by_contra hmode
    exact hmore (Kind.handle_waits h hmode)

variable {r : ℤ}

theorem conclude_bounds (hold : old ≤ w.length)
    (h : (conclude beyond st old w).ret = .ok r) :
    0 ≤ r ∧ (old < w.length → r ≤ w.length - old) := by
  by_cases hone : w.length ≤ 1
  · rw [conclude, if_pos hone] at h
    cases h
    omega
  simp only [conclude, if_neg hone] at h
  cases hret : (handleShort beyond st w).ret with
  | error f => simp [hret] at h
  | ok n =>
    have hle (hne : n ≠ 0) : n ≤ w.length := by
      match w with
      | [] | [_] => simp at hone
      | e :: c :: p =>
        obtain ⟨kind, -, hkind⟩ := handleShort_kind beyond c
        rw [hkind] at hret
        exact (Kind.handle_bounds hret hne).2
    simp only [hret] at h
    split_ifs at h with hzero hbefore
    · cases h
      omega
    · cases h
      omega

def sequence (st : VT100State) (a : List UInt8) : List UInt8 := st.cache ++ a.take (room st)

/-- A full cache is given up, or the call takes bytes from the buffer behind it. -/
theorem escape_cases (beyond : ℕ → UInt32) (st : VT100State) (ha : a ≠ []) :
    (maxEscapeLen ≤ st.cache.length ∧
      handleEscape beyond st a = ⟨.ok 0, { st with cache := [] }, []⟩) ∨
    (st.cache.length < (sequence st a).length ∧
      (sequence st a).length ≤ st.cache.length + a.length ∧
      handleEscape beyond st a =
        conclude beyond { st with cache := [] } st.cache.length (sequence st a)) := by
  rcases Nat.lt_or_ge st.cache.length maxEscapeLen with hfits | hfull
  · have hpos := length_pos_iff.mpr ha
    have hroom : 0 < room st := Nat.sub_pos_of_lt hfits
    refine .inr ⟨?_, ?_, handleEscape_eq hroom ha⟩ <;>
      · rw [sequence, length_append, length_take]
        omega
  · refine .inl ⟨hfull, ?_⟩
    simp only [handleEscape, Nat.sub_eq_zero_of_le hfull, Nat.zero_min, if_true]

theorem handleEscape_le (ha : a ≠ []) (h : (handleEscape beyond st a).ret = .ok r) :
    0 ≤ r ∧ r ≤ a.length := by
  rcases escape_cases beyond st ha with ⟨-, heq⟩ | ⟨hlt, hle, heq⟩
  · rw [heq] at h
    cases h
    omega
  · rw [heq] at h
    have hbounds := conclude_bounds hlt.le h
    omega

theorem locateEos_append_some {p : ℕ} (h : locateEos a = some p) :
    locateEos (a ++ b) = some p ∧ p < a.length := by
  induction a generalizing p with
  | nil => simp [locateEos] at h
  | cons c rest ih =>
    have hhead (hne : rest ≠ []) : (rest ++ b).head? = rest.head? := by
      obtain ⟨d, rest, rfl⟩ := exists_cons_of_ne_nil hne
      rfl
    rw [locateEos] at h
    rw [cons_append, locateEos]
    split_ifs at h with hbel hst hesc
    · cases h
      exact ⟨if_pos hbel, succ_pos _⟩
    · cases h
      exact ⟨by rw [if_neg hbel, if_pos hst], succ_pos _⟩
    · cases h
      have hne : rest ≠ [] := by
        rintro rfl
        cases hesc.2
      exact ⟨by rw [if_neg hbel, if_neg hst, hhead hne, if_pos hesc], succ_pos _⟩
    · obtain ⟨q, hq, rfl⟩ := map_eq_some_iff.mp h
      obtain ⟨hfound, hlt⟩ := ih hq
      have hne : rest ≠ [] := by
        rintro rfl
        cases hq
      rw [if_neg hbel, if_neg hst, hhead hne, if_neg hesc, hfound]
      exact ⟨rfl, succ_lt_succ hlt⟩

theorem locateEos_append_none (h : locateEos a = none)
    (hcut : ¬ (a.getLast? = some esc ∧ b.head? = some 92)) :
    locateEos (a ++ b) = (locateEos b).map (a.length + ·) := by
  induction a with
  | nil => simp
  | cons c rest ih =>
    rw [locateEos] at h
    rw [cons_append, locateEos]
    split_ifs at h with hbel hst hesc
    have hesc' : ¬ (c = esc ∧ (rest ++ b).head? = some 92) := by
      rintro ⟨hc, hhead⟩
      cases rest with
      | nil => exact hcut ⟨by simp [hc], by simpa using hhead⟩
      | cons d rest => exact hesc ⟨hc, by simpa using hhead⟩
    have hlast : ¬ (rest.getLast? = some esc ∧ b.head? = some 92) := by
      rintro ⟨hlast, hhead⟩
      refine hcut ⟨?_, hhead⟩
      cases rest with
      | nil => simp at hlast
      | cons d rest => rwa [getLast?_cons_cons]
    rw [if_neg hbel, if_neg hst, if_neg hesc', ih (map_eq_none_iff.mp h) hlast, Option.map_map]
    congr 1
    funext n
    simp only [Function.comp_apply, length_cons]
    omega

theorem handleString_le (ha : a ≠ []) (h : (handleString st a).ret = .ok r) :
    r.natAbs ≤ a.length := by
  by_cases heos : locateEos a = some 0
  · rw [handleString, if_neg (not_not_intro heos)] at h
    cases h
    exact length_pos_iff.mpr ha
  · rw [handleString_open heos] at h
    cases h
    cases hfound : locateEos a with
    | none => exact le_refl _
    | some n => exact (locateEos_append_some (b := []) hfound).2.le

theorem handlePlain_le (ha : a ≠ []) (h : (handlePlain st a).ret = .ok r) :
    r.natAbs ≤ a.length := by
  have hpos := length_pos_iff.mpr ha
  simp only [handlePlain] at h
  split_ifs at h with hb ht hn hr hnext <;> cases h
  · exact hpos
  · exact hpos
  · exact hpos
  · rcases a with _ | ⟨_, _ | _⟩
    · simp at hnext
    · simp at hnext
    · simp
  · exact hpos
  · rw [Int.natAbs_neg]
    exact ( takeWhile_prefix _).length_le

theorem handleVT100_le (ha : a ≠ []) (h : (handleVT100 beyond st a).ret = .ok r) :
    r.natAbs ≤ a.length := by
  rw [handleVT100] at h
  cases hmode : st.mode with
  | ignore =>
    simp only [hmode] at h
    cases h
    exact length_pos_iff.mpr ha
  | string =>
    simp only [hmode] at h
    exact handleString_le ha h
  | normal =>
    simp only [hmode] at h
    split_ifs at h
    · have hbounds := handleEscape_le ha h
      omega
    · exact handlePlain_le ha h

/-- Not between the escape and the backslash that end a string, and not in an OSC sequence without a
number -/
def CutClean (st : VT100State) (rest : List UInt8) : Prop :=
  match st.mode with
  | .normal => st.cache ≠ [] → OscNumbered (st.cache ++ rest)
  | .ignore => True
  | .string => st.cache = [] ∧ ¬ (st.stringCache.getLast? = some esc ∧ rest.head? = some 92)

section

variable (beyond) (st) (a) (b)

def Settled : Prop :=
  turn beyond st (a ++ b) = turn beyond st a ∧
    ∀ next, (turn beyond st a).value = some next → next.2 ≤ a.length

def Pending : Prop :=
  ∃ next, (turn beyond st a).value = some (next, a.length) ∧
    (CutClean next b → Joined beyond st a b ∨ turn beyond st (a ++ b) = turn beyond st a)

end

theorem settled (ha : a ≠ []) (h : turn beyond st (a ++ b) = turn beyond st a) :
    Settled beyond st a b := by
  refine ⟨h, fun next hnext => ?_⟩
  obtain ⟨r, hret, rfl⟩ := turn_value hnext
  exact handleVT100_le ha hret

theorem turn_window (st : VT100State) (hmode : st.mode = .normal)
    (hesc : st.cache ≠ [] ∨ a.headD 0 = esc)
    (hroom : 0 < room st) (ha : a ≠ []) :
    turn beyond st a = account (conclude beyond { st with cache := [] } st.cache.length
      (st.cache ++ a.take (room st))) := by
  rw [← handleEscape_eq hroom ha]
  exact turn_escape hmode hesc fun r hr => (handleEscape_le ha hr).1

theorem turn_append_escape (hmode : st.mode = .normal) (hesc : st.cache ≠ [] ∨ a.headD 0 = esc)
    (ha : a ≠ []) (hb : b ≠ []) : Settled beyond st a b ∨ Pending beyond st a b := by
  have hesc' : st.cache ≠ [] ∨ (a ++ b).headD 0 = esc := by
    refine hesc.imp_right fun h => ?_
    obtain ⟨c, rest, rfl⟩ := exists_cons_of_ne_nil ha
    exact h
  have hab : a ++ b ≠ [] := by simp [ha]
  have hapos := length_pos_iff.mpr ha
  by_cases hfull : room st = 0
  · -- the cache is given up
    have hparsed (c : List UInt8) :
        handleEscape beyond st c = ⟨.ok 0, { st with cache := [] }, []⟩ := by
      rw [room] at hfull
      simp [handleEscape, hfull]
    refine .inl (settled ha ?_)
    rw [turn_escape hmode hesc (by simp [hparsed]), turn_escape hmode hesc' (by simp [hparsed]),
      hparsed, hparsed]
  have hroom : 0 < room st := by omega
  have hold (c : List UInt8) : st.cache.length ≤ (st.cache ++ c).length := by
    rw [length_append]
    omega
  by_cases henough : room st ≤ a.length
  · -- the cache is filled with bytes of `a`
    refine .inl (settled ha ?_)
    rw [turn_window _ hmode hesc' hroom hab, turn_window _ hmode hesc hroom ha,
      take_append_of_le_length henough]
  have hall : a.take (room st) = a := take_of_length_le (by omega)
  have hsplit : (a ++ b).take (room st) = a ++ b.take (room st - a.length) := by
    rw [take_append, hall]
  have hx : b.take (room st - a.length) ≠ [] := by
    simp only [ne_eq, take_eq_nil_iff, hb, or_false]
    omega
  have hw : st.cache ++ a ≠ [] := by simp [ha]
  have hlen : (st.cache ++ a).length - st.cache.length = a.length := by
    rw [length_append]
    omega
  have habs : (((st.cache ++ a).length : ℤ) - st.cache.length).natAbs = a.length := by omega
  by_cases hwait : Waits beyond { st with cache := [] } (st.cache ++ a)
  · right
    have hnew : (st.cache ++ a).length ≤ 1 → st.cache.length + 1 = (st.cache ++ a).length := by
      omega
    have hturn : turn beyond st a = .pure ({ st with cache := st.cache ++ a }, a.length) := by
      rw [turn_window _ hmode hesc hroom ha, hall, conclude_waits hwait hnew]
      simp only [account, habs]
      rfl
    refine ⟨{ st with cache := st.cache ++ a }, by rw [hturn]; rfl, fun hclean => ?_⟩
    have hosc : OscNumbered (st.cache ++ a ++ b.take (room st - a.length)) := by
      have hnum : OscNumbered (st.cache ++ a ++ b) := by
        simp only [CutClean, hmode] at hclean
        exact hclean hw
      rw [← take_append_drop (room st - a.length) b, ← append_assoc] at hnum
      exact hnum.left
    have hrest : room { st with cache := st.cache ++ a } = room st - a.length := by
      rw [room, room, length_append]
      omega
    have hsecond : turn beyond { st with cache := st.cache ++ a } b =
        account (conclude beyond { st with cache := [] } (st.cache ++ a).length
          (st.cache ++ a ++ b.take (room st - a.length))) := by
      rw [turn_window { st with cache := st.cache ++ a } hmode (.inl hw) (by omega) hb, hrest]
    left
    rw [Joined, hturn, pure_bind, hsecond, turn_window _ hmode hesc' hroom hab, hsplit,
      ← append_assoc, account_conclude hw hx hwait (by simp [hmode]) hosc (hold a), hlen]
  · have hlong : 1 < (st.cache ++ a).length := Nat.lt_of_not_le fun h => hwait (.inl h)
    by_cases hzero : (handleShort beyond { st with cache := [] } (st.cache ++ a)).ret = .ok 0
    · -- an OSC sequence without a number
      right
      have hstring := short_string hlong hzero fun hmore => hwait (.inr hmore)
      have hparsed := conclude_zero st.cache.length hlong hzero
      refine ⟨{ (handleShort beyond { st with cache := [] } (st.cache ++ a)).st with
        cache := st.cache ++ a }, ?_, fun hclean => ?_⟩
      · rw [turn_window _ hmode hesc hroom ha, hall, hparsed]
        simp only [account, habs]
      · simp only [CutClean, hstring] at hclean
        exact absurd hclean.1 hw
    · refine .inl (settled ha ?_)
      rw [turn_window _ hmode hesc' hroom hab, turn_window _ hmode hesc hroom ha, hall, hsplit,
        ← append_assoc]
      exact account_stable hlong hzero

theorem turn_string (hmode : st.mode = .string) (h : locateEos a ≠ some 0) :
    turn beyond st a = .pure ({ st with
      stringCache := st.stringCache ++ a.take ((locateEos a).getD a.length) },
        (locateEos a).getD a.length) := by
  have hparsed : handleVT100 beyond st a = handleString st a := by simp only [handleVT100, hmode]
  have hbusy : st.mode ≠ .normal := by simp [hmode]
  simp only [turn, hparsed, handleString_open h, counted_busy (.inl hbusy)]
  rfl

theorem turn_append_string (hmode : st.mode = .string) (ha : a ≠ []) :
    Settled beyond st a b ∨ Pending beyond st a b := by
  have hapos := length_pos_iff.mpr ha
  cases hpos : locateEos a with
  | some p =>
    refine .inl (settled ha ?_)
    obtain ⟨hpos', hlt⟩ := locateEos_append_some (b := b) hpos
    have htake : (a ++ b).take p = a.take p := take_append_of_le_length hlt.le
    by_cases hzero : p = 0
    · subst hzero
      have hparsed : handleVT100 beyond st (a ++ b) = handleVT100 beyond st a := by
        obtain ⟨c, rest, rfl⟩ := exists_cons_of_ne_nil ha
        simp only [handleVT100, hmode, handleString, hpos, hpos', getD_some, take_zero]
        rfl
      have hret : (handleVT100 beyond st a).ret = .ok 1 := by
        simp [handleVT100, hmode, handleString, hpos]
      have hbusy : st.mode ≠ .normal := by simp [hmode]
      simp only [turn, hparsed, counted_busy (.inl hbusy), hret]
      rfl
    · have hne : locateEos a ≠ some 0 := by simp [hpos, hzero]
      have hne' : locateEos (a ++ b) ≠ some 0 := by simp [hpos', hzero]
      rw [turn_string hmode hne, turn_string hmode hne', hpos, hpos']
      simp only [getD_some, htake]
  | none =>
    right
    have hne : locateEos a ≠ some 0 := by simp [hpos]
    have hturn : turn beyond st a =
        .pure ({ st with stringCache := st.stringCache ++ a }, a.length) := by
      rw [turn_string hmode hne, hpos, getD_none, take_length]
    refine ⟨{ st with stringCache := st.stringCache ++ a }, by rw [hturn]; rfl, fun hclean => ?_⟩
    have hcut : ¬ (a.getLast? = some esc ∧ b.head? = some 92) := by
      have hlast := getLast?_eq_some_getLast ha
      simp only [CutClean, hmode, getLast?_append, hlast, some_or] at hclean
      rw [hlast]
      exact hclean.2
    have hpos' := locateEos_append_none hpos hcut
    have hne' : locateEos (a ++ b) ≠ some 0 := by
      rw [hpos']
      simp only [ne_eq, map_eq_some_iff, not_exists, not_and]
      omega
    have htaken : (locateEos (a ++ b)).getD (a ++ b).length =
        a.length + (locateEos b).getD b.length := by
      rw [hpos', length_append]
      cases locateEos b <;> rfl
    by_cases hend : locateEos b = some 0
    · right
      rw [turn_string hmode hne', hturn, htaken, hend]
      simp only [getD_some, add_zero, take_left']
    left
    have hsecond : turn beyond { st with stringCache := st.stringCache ++ a } b = .pure ({ st with
          stringCache := st.stringCache ++ a ++ b.take ((locateEos b).getD b.length) },
            (locateEos b).getD b.length) := turn_string hmode hend
    rw [Joined, hturn, pure_bind, hsecond, turn_string hmode hne', htaken, pure_bind,
      take_length_add_append]
    simp only [append_assoc]

theorem handleVT100_plain (hmode : st.mode = .normal) (hesc : ¬ (st.cache ≠ [] ∨ a.headD 0 = esc)) :
    handleVT100 beyond st a = handlePlain st a := by
  simp only [handleVT100, hmode]
  exact if_neg hesc

variable {c : UInt8} {rest : List UInt8}

def textOf (a : List UInt8) : List UInt8 := a.takeWhile fun c => !endsText c

section

variable (hmode : st.mode = .normal) (hcache : st.cache = [])
include hmode hcache

theorem turn_control (hc : c = 0x08 ∨ c = 0x09 ∨ c = 0x0a) (rest : List UInt8) :
    turn beyond st (c :: rest) = ⟨[.op (if c = 0x08 then .moveCursor 0 (-1)
      else if c = 0x09 then .addTab else .newline)], some (st, 1)⟩ := by
  have hne : c ≠ 0x0d := by
    rcases hc with rfl | rfl | rfl <;> decide
  have hplain : handleVT100 beyond st (c :: rest) = handlePlain st (c :: rest) :=
    handleVT100_plain hmode (by rcases hc with rfl | rfl | rfl <;> simp [hcache, esc])
  rcases hc with rfl | rfl | rfl <;> simp [turn, hplain, counted_head hne, handlePlain]

theorem settled_control (hc : c = 0x08 ∨ c = 0x09 ∨ c = 0x0a) :
    Settled beyond st (c :: rest) b := by
  apply settled (cons_ne_nil _ _)
  rw [cons_append, turn_control hmode hcache hc, turn_control hmode hcache hc]

theorem turn_return (rest : List UInt8) :
    turn beyond st (0x0d :: rest) = if rest.head? = some 0x0a then
        ⟨[.op (.moveCursor 0 intMin), .op .newline], some (st, 2)⟩
      else ⟨[.op (.moveCursor 0 intMin)], some (st, 1)⟩ := by
  have hplain : handleVT100 beyond st (0x0d :: rest) = handlePlain st (0x0d :: rest) :=
    handleVT100_plain hmode (by simp [hcache, esc])
  cases rest with
  | nil => simp [turn, hplain, handlePlain, counted]
  | cons d rest =>
    by_cases hd : d = 0x0a
    · subst hd
      simp [turn, hplain, handlePlain, counted, hmode, hcache]
    · simp [turn, hplain, handlePlain, counted, hd]

theorem turn_text (hc : endsText c = false) (rest : List UInt8) : turn beyond st (c :: rest) =
      ⟨(textOf (c :: rest)).map .text, some (st, (textOf (c :: rest)).length)⟩ := by
  have hesc : ¬ (st.cache ≠ [] ∨ (c :: rest).headD 0 = esc) := by
    rintro (h | h)
    · exact h hcache
    · rw [headD_cons] at h
      exact absurd hc (by rw [h]; decide)
  have hne : c ≠ 0x0d := by
    rintro rfl
    cases hc
  have hparsed : handleVT100 beyond st (c :: rest) =
      ⟨.ok (-(textOf (c :: rest)).length), st, []⟩ := by
    rw [handleVT100_plain hmode hesc, handlePlain_text hc]
    rfl
  have hpos : 0 < (textOf (c :: rest)).length := by
    rw [textOf, takeWhile_cons, if_pos (by rw [hc]; rfl)]
    exact succ_pos _
  have htake : (c :: rest).take (textOf (c :: rest)).length = textOf (c :: rest) :=
    prefix_iff_eq_take.mp ( takeWhile_prefix _) |>.symm
  simp only [turn, hparsed, counted_head hne, map_nil, nil_append, Int.natAbs_neg,
    Int.natAbs_natCast, htake]
  rw [if_pos (by omega)]

theorem turn_append_text (hc : endsText c = false) (hb : b ≠ []) :
    Settled beyond st (c :: rest) b ∨ Pending beyond st (c :: rest) b := by
  by_cases hall : ∀ d ∈ c :: rest, (!endsText d) = true
  · right
    have happend (y : List UInt8) : textOf (c :: rest ++ y) = c :: rest ++ textOf y :=
      takeWhile_append_of_pos hall
    have hown : textOf (c :: rest) = c :: rest := by simpa [textOf] using happend []
    have hboth : textOf (c :: (rest ++ b)) = c :: rest ++ textOf b := happend b
    refine ⟨st, by rw [turn_text hmode hcache hc, hown], fun _ => ?_⟩
    obtain ⟨d, b, rfl⟩ := exists_cons_of_ne_nil hb
    cases hd : endsText d with
    | true =>
      right
      have hnone : textOf (d :: b) = [] := by
        rw [textOf, takeWhile_cons, if_neg (by rw [hd]; decide)]
      rw [cons_append, turn_text hmode hcache hc, hboth, hnone, turn_text hmode hcache hc, hown,
        append_nil]
    | false =>
      left
      rw [Joined, cons_append, turn_text hmode hcache hc, turn_text hmode hcache hc, hown, hboth]
      simp only [Trace.bind, turn_text hmode hcache hd, Trace.pure, map_append, append_nil,
        length_append]
  · refine .inl (settled (cons_ne_nil _ _) ?_)
    have hsame : textOf (c :: rest ++ b) = textOf (c :: rest) := by
      rw [textOf, takeWhile_append, if_neg ?_]
      · rfl
      · intro hlen
        have hwhole := ( takeWhile_prefix fun d => !endsText d).eq_of_length hlen
        refine hall fun d hd => ?_
        rw [← hwhole] at hd
        exact all_eq_true.mp all_takeWhile d hd
    rw [turn_text hmode hcache hc, cons_append, turn_text hmode hcache hc, ← cons_append, hsame]

theorem turn_append_return
    (hb : b ≠ []) : Settled beyond st (0x0d :: rest) b ∨ Pending beyond st (0x0d :: rest) b := by
  cases rest with
  | nil =>
    right
    refine ⟨st, by rw [turn_return hmode hcache]; rfl, fun _ => ?_⟩
    obtain ⟨d, b, rfl⟩ := exists_cons_of_ne_nil hb
    by_cases hd : d = 0x0a
    · subst hd
      left
      have hnewline : turn beyond st (0x0a :: b) = _ :=
        turn_control hmode hcache (.inr (.inr rfl)) b
      rw [Joined, singleton_append, turn_return hmode hcache, turn_return hmode hcache]
      simp [Trace.bind, Trace.pure, hnewline]
    · right
      rw [singleton_append, turn_return hmode hcache, turn_return hmode hcache]
      simp [hd]
  | cons d rest =>
    refine .inl (settled (cons_ne_nil _ _) ?_)
    rw [cons_append, turn_return hmode hcache, turn_return hmode hcache]
    rfl

end

theorem turn_append (ha : a ≠ []) (hb : b ≠ []) :
    Settled beyond st a b ∨ Pending beyond st a b := by
  cases hmode : st.mode with
  | ignore =>
    have hparsed (c : List UInt8) : turn beyond st c = .pure ({ st with mode := .normal }, 1) := by
      simp [turn, handleVT100, counted, hmode, Trace.pure]
    exact .inl (settled ha (by rw [hparsed, hparsed]))
  | string => exact turn_append_string hmode ha
  | normal =>
    by_cases hesc : st.cache ≠ [] ∨ a.headD 0 = esc
    · exact turn_append_escape hmode hesc ha hb
    rw [not_or, not_not] at hesc
    obtain ⟨hcache, hhead⟩ := hesc
    obtain ⟨c, rest, rfl⟩ := exists_cons_of_ne_nil ha
    cases hc : endsText c with
    | false => exact turn_append_text hmode hcache hc hb
    | true =>
      rcases endsText_cases hc with rfl | hc | hc | hc | rfl
      · exact absurd rfl hhead
      · exact .inl (settled_control hmode hcache (.inl hc))
      · exact .inl (settled_control hmode hcache (.inr (.inl hc)))
      · exact .inl (settled_control hmode hcache (.inr (.inr hc)))
      · exact turn_append_return hmode hcache hb

theorem handleOutput_joined (ha : a ≠ []) (hb : b ≠ []) {next : VT100State}
    (hturn : (turn beyond st a).value = some (next, a.length)) (h : Joined beyond st a b) :
    handleOutput beyond st (a ++ b) =
      (handleOutput beyond st a).bind fun st => handleOutput beyond st b := by
  have hab : a ++ b ≠ [] := by simp [ha]
  rw [handleOutput_eq hab, handleOutput_eq ha, h, bind_assoc, bind_assoc]
  apply bind_congr
  rintro first hfirst
  cases hturn.symm.trans hfirst
  rw [drop_length, handleOutput_nil, pure_bind, handleOutput_eq hb, bind_assoc]
  apply bind_congr
  intro second _
  rw [pure_bind, drop_length_add_append]

theorem handleOutput_append
    (hclean : ∀ next, (handleOutput beyond st a).value = some next → CutClean next b) :
    handleOutput beyond st (a ++ b) =
      (handleOutput beyond st a).bind fun st => handleOutput beyond st b := by
  -- the turns that are left get fewer with every turn
  induction hbudget : budget st a using Nat.strong_induction_on generalizing st a with
  | _ n ih =>
    by_cases ha : a = []
    · rw [ha, nil_append, handleOutput_nil, pure_bind]
    by_cases hb : b = []
    · rw [hb, append_nil]
      exact (bind_pure _).symm
    have hab : a ++ b ≠ [] := by simp [ha]
    rcases turn_append ha hb with ⟨hsame, hle⟩ | ⟨next, hturn, hjoin⟩
    · rw [handleOutput_eq hab, handleOutput_eq ha, hsame, bind_assoc]
      apply bind_congr
      intro next hnext
      rw [drop_append_of_le_length (hle next hnext)]
      have hless := budget_turn ha hnext
      rw [hbudget] at hless
      refine ih _ hless (fun last hlast => hclean last ?_) rfl
      rw [handleOutput_eq ha, bind_value hnext]
      exact hlast
    · have hvalue : (handleOutput beyond st a).value = some next := by
        rw [handleOutput_eq ha, bind_value hturn, drop_length, handleOutput_nil]
        rfl
      rcases hjoin (hclean next hvalue) with hjoined | hsame
      · exact handleOutput_joined ha hb hturn hjoined
      · rw [handleOutput_eq hab, handleOutput_eq ha, hsame, bind_assoc]
        apply bind_congr
        intro first hfirst
        cases hturn.symm.trans hfirst
        rw [drop_length, handleOutput_nil, pure_bind, drop_left]

def Clean (beyond : ℕ → UInt32) : VT100State → List (List UInt8) → Prop
  | _, [] => True
  | st, chunk :: chunks =>
    match (handleOutput beyond st chunk).value with
    | none => True
    | some next => CutClean next chunks.flatten ∧ Clean beyond next chunks

theorem handleChunks_flatten {chunks : List (List UInt8)} (h : Clean beyond st chunks) :
    handleChunks beyond st chunks = handleOutput beyond st chunks.flatten := by
  induction chunks generalizing st with
  | nil => rfl
  | cons chunk chunks ih =>
    rw [Clean] at h
    rw [handleChunks, flatten_cons, handleOutput_append]
    · apply bind_congr
      intro next hnext
      simp only [hnext] at h
      exact ih h.2
    · intro next hnext
      simp only [hnext] at h
      exact h.1

/-- Two ways of cutting a stream give the same operations and the same text. -/
theorem cuts_agree (beyond : ℕ → UInt32) (chunks chunks' : List (List UInt8))
    (hstream : chunks.flatten = chunks'.flatten) (hclean : Clean beyond VT100State.init chunks)
    (hclean' : Clean beyond VT100State.init chunks') :
    handleChunks beyond VT100State.init chunks = handleChunks beyond VT100State.init chunks' := by
  rw [handleChunks_flatten hclean, handleChunks_flatten hclean', hstream]

instance (p : List UInt8) : Decidable (Numbered p) := inferInstanceAs (Decidable (_ ∧ _))

instance : ∀ w, Decidable (OscNumbered w)
  | [] | [_] => isTrue trivial
  | _ :: _ :: _ => inferInstanceAs (Decidable (_ → Numbered _))

instance (st : VT100State) (rest : List UInt8) : Decidable (CutClean st rest) :=
  match h : st.mode with
  | .normal => decidable_of_iff (st.cache ≠ [] → OscNumbered (st.cache ++ rest))
      (by simp [CutClean, h])
  | .ignore => isTrue (by simp [CutClean, h])
  | .string =>
    decidable_of_iff (st.cache = [] ∧ ¬ (st.stringCache.getLast? = some esc ∧ rest.head? = some 92))
      (by simp [CutClean, h])

instance decidableClean (beyond : ℕ → UInt32) : ∀ st chunks, Decidable (Clean beyond st chunks)
  | _, [] => isTrue trivial
  | st, chunk :: chunks =>
    match h : (handleOutput beyond st chunk).value with
    | none => isTrue (by simp [Clean, h])
    | some next =>
      have := decidableClean beyond next chunks
      decidable_of_iff (CutClean next chunks.flatten ∧ Clean beyond next chunks)
        (by simp [Clean, h])

def noColours : ℕ → UInt32 := fun _ => 0

def greeting : List UInt8 :=
  [0x1b, 0x5b, 0x31, 0x3b, 0x33, 0x31, 0x6d, 0x48, 0x69, 0x0d, 0x0a, 0x1b, 0x5d, 0x30, 0x3b, 0x74,
   0x07]

/-- At once, and byte by byte -/
theorem greeting_cuts_agree : handleChunks noColours VT100State.init [greeting] =
      handleChunks noColours VT100State.init (greeting.map fun c => [c]) := by
  apply cuts_agree
  · decide +kernel
  · decide +kernel
  · decide +kernel

/-- `\e]0;a\e\\` sets the title `a`, unless it is cut before the backslash. -/
theorem title_lost : (handleChunks noColours VT100State.init
        [[0x1b, 0x5d, 0x30, 0x3b, 0x61, 0x1b, 0x5c]]).events = [.op (.setTitle [0x61])] ∧
      (handleChunks noColours VT100State.init
        [[0x1b, 0x5d, 0x30, 0x3b, 0x61, 0x1b], [0x5c]]).events = [] := by
  constructor
  · decide +kernel
  · decide +kernel

end Vt100Chunks
