import Acess2.Vt100Prefixes

/-! The accesses of `Term_HandleVT100_Long`.
The parser of `Vt100` takes the bytes of a sequence from a list. Here they are read by their index
in the buffer, as the code does, and an index that is not below `Len` is a fault; the two agree.
Of the arguments there is room for six, which nothing but the number of separators sees to. -/
namespace Vt100Bounds

open Strtoi (kernelIsdigit)
open List Vt100 Vt100Prefixes

variable (beyond : ℕ → UInt32) (st : VT100State) (buffer : List UInt8)

/-- `if(j == Len) return 0; c = Buffer[j++];`, and what comes after -/
def fetch (j : ℕ) (next : UInt8 → ℕ → Parsed ℕ) : Parsed ℕ :=
  if j = buffer.length then more st
  else if h : j < buffer.length then next buffer[j] (j + 1)
  else ⟨.error .stray, st, []⟩

/-- The loops that read the arguments; `j` is the index behind `c`. -/
def readArgsAt (args : Fin 6 → ℕ) (argc : ℕ) (c : UInt8) (j : ℕ) : Except Fault (Option Sequence) :=
  match argsTurn args argc c with
  | .error f => .error f
  | .ok none => .ok (some ⟨args, argc + 1, c, buffer.drop j⟩)
  | .ok (some (args, argc)) =>
    if j = buffer.length then .ok none
    else if h : j < buffer.length then readArgsAt args argc buffer[j] (j + 1)
    else .error .stray
termination_by buffer.length - j

def handleArgsAt (question : Bool) (c : UInt8) (j : ℕ) : Parsed ℕ :=
  finishLong beyond st buffer.length (question,
    if kernelIsdigit c ∨ c = semicolon then readArgsAt buffer (fun _ => 0) 0 c j
    else .ok (some ⟨fun _ => 0, 0, c, buffer.drop j⟩))

def handleLongAt : Parsed ℕ :=
  fetch st buffer 0 fun c j =>
    if c = questionMark then fetch st buffer j (handleArgsAt beyond st buffer true)
    else handleArgsAt beyond st buffer false c j

variable {beyond} {st} {buffer} {rest : List UInt8} {j argc : ℕ} {c : UInt8} {args : Fin 6 → ℕ}

theorem index_of_drop (h : buffer.drop j = c :: rest) :
    ∃ hj : j < buffer.length, buffer[j] = c ∧ buffer.drop (j + 1) = rest := by
  have hj : j < buffer.length := by
    by_contra hge
    simp [drop_eq_nil_of_le (Nat.not_lt.mp hge)] at h
  rw [drop_eq_getElem_cons hj] at h
  exact ⟨hj, (cons_eq_cons.mp h).1, (cons_eq_cons.mp h).2⟩

theorem readArgsAt_eq (hj : j ≤ buffer.length) :
    readArgsAt buffer args argc c j = readArgs args argc c (buffer.drop j) := by
  fun_induction readArgsAt buffer args argc c j with
  | case1 args argc c j f hturn => rw [readArgs, hturn]
  | case2 args argc c j hturn => rw [readArgs, hturn]
  | case3 args argc c args' argc' hturn => rw [readArgs, hturn, drop_length]
  | case4 args argc c j args' argc' hturn hne hlt ih =>
    rw [ih hlt, readArgs.eq_def args argc, hturn, drop_eq_getElem_cons hlt]
  | case5 args argc c j args' argc' hturn hne hge => omega

theorem fetch_eq {next : UInt8 → ℕ → Parsed ℕ} (hj : j ≤ buffer.length) :
    fetch st buffer j next = match buffer.drop j with
      | [] => more st
      | c :: _ => next c (j + 1) := by
  cases h : buffer.drop j with
  | nil => exact if_pos (Nat.le_antisymm hj (drop_eq_nil_iff.mp h))
  | cons c rest =>
    obtain ⟨hlt, rfl, -⟩ := index_of_drop h
    rw [fetch, if_neg (Nat.ne_of_lt hlt), dif_pos hlt]

theorem handleArgsAt_eq {question : Bool} (hj : j ≤ buffer.length) :
    handleArgsAt beyond st buffer question c j =
      handleArgs beyond st buffer.length question c (buffer.drop j) := by
  rw [handleArgs_eq, parseArgs, handleArgsAt, readArgsAt_eq hj]

theorem handleLongAt_eq : handleLongAt beyond st buffer = handleLong beyond st buffer := by
  rw [handleLongAt, fetch_eq (Nat.zero_le _)]
  match buffer with
  | [] => rfl
  | [c] => simp [handleLong, fetch_eq, handleArgsAt_eq]
  | c :: d :: rest => simp [handleLong, fetch_eq, handleArgsAt_eq]

def argBytes (u : List UInt8) : List UInt8 := u.takeWhile fun c => kernelIsdigit c || c == semicolon

def arguments (u : List UInt8) : List (List UInt8) := (argBytes u).splitOn semicolon

def number (digits : List UInt8) : ℕ := digits.foldl (fun v c => v * 10 + (c.toNat - 48)) 0

/-- Of the arguments there is room for, one is larger than an `int`. -/
def Overflows (room : ℕ) (ps : List (List UInt8)) : Prop := ∃ p ∈ ps.take room, 2 ^ 31 ≤ number p

/-- One of the arguments there is no room for has a digit. -/
def Strays (room : ℕ) (ps : List (List UInt8)) : Prop := ∃ p ∈ ps.drop room, p ≠ []

variable {f : Fault} {b d u : List UInt8} {ps : List (List UInt8)} {seq : Sequence}
  {read : Except Fault (Option Sequence)}

theorem number_snoc (d : List UInt8) (c : UInt8) :
    number (d ++ [c]) = number d * 10 + (c.toNat - 48) := by
  rw [number, foldl_append]
  rfl

theorem number_le_append (d u : List UInt8) : number d ≤ number (d ++ u) := by
  induction u generalizing d with
  | nil => rw [append_nil]
  | cons c u ih =>
    rw [← singleton_append, ← append_assoc]
    refine Nat.le_trans ?_ (ih (d ++ [c]))
    rw [number_snoc]
    omega

section

variable (u)

theorem argBytes_cons (h : kernelIsdigit c ∨ c = semicolon) :
    argBytes (c :: u) = c :: argBytes u := by
  rw [argBytes, takeWhile_cons, if_pos (by simpa using h)]
  rfl

theorem arguments_digit (h : kernelIsdigit c) :
    arguments (c :: u) = (arguments u).modifyHead (cons c) := by
  have hne : (c == semicolon) = false := by
    rw [beq_eq_false_iff_ne]
    rintro rfl
    exact absurd h (by decide)
  rw [arguments, argBytes_cons u (.inl h), splitOn, splitOnP_cons_eq_if_modifyHead, hne]
  rfl

theorem arguments_semicolon : arguments (semicolon :: u) = [] :: arguments u := by
  rw [arguments, argBytes_cons u (.inr rfl), splitOn, splitOnP_cons_eq_if_modifyHead]
  exact if_pos rfl

theorem arguments_other (h : ¬ (kernelIsdigit c ∨ c = semicolon)) :
    argBytes (c :: u) = [] ∧ arguments (c :: u) = [[]] := by
  have hnone : argBytes (c :: u) = [] := by
    rw [argBytes, takeWhile_cons, if_neg (by simpa using h)]
  exact ⟨hnone, by rw [arguments, hnone, splitOn_nil]⟩

end

/-- The loops are at the argument `argc`, and have read `d` of it. -/
structure Reading (args : Fin 6 → ℕ) (argc : ℕ) (d : List UInt8) : Prop where
  small : number d < 2 ^ 31
  room : 6 ≤ argc → d = []
  args : ∀ j : Fin 6, argc ≤ j → args j = if argc = j then number d else 0

/-- What the loops make of the bytes `b`, with the arguments `ps` from `argc` on -/
def Reads (args : Fin 6 → ℕ) (argc : ℕ) (ps : List (List UInt8)) (b : List UInt8) :
    Except Fault (Option Sequence) → Prop
  | .error f => f = .overflow ∧ Overflows (6 - argc) ps ∨ f = .args ∧ Strays (6 - argc) ps
  | .ok none => ¬ Overflows (6 - argc) ps ∧ ¬ Strays (6 - argc) ps ∧ argBytes b = b
  | .ok (some seq) => ¬ Overflows (6 - argc) ps ∧ ¬ Strays (6 - argc) ps ∧
      argBytes b ++ seq.c :: seq.rest = b ∧ (6 < seq.argc ↔ 6 < argc + ps.length) ∧
      ∀ j : Fin 6, seq.args j = if j.val < argc then args j else number (ps.getD (j - argc) [])

theorem Reads.cons (h : Reads args argc ps b read) (hc : kernelIsdigit c ∨ c = semicolon) :
    Reads args argc ps (c :: b) read := by
  obtain f | _ | seq := read
  · exact h
  · exact ⟨h.1, h.2.1, by rw [argBytes_cons b hc, h.2.2]⟩
  · obtain ⟨hover, hstray, hsplit, hrest⟩ := h
    exact ⟨hover, hstray, by rw [argBytes_cons b hc, cons_append, hsplit], hrest⟩

theorem Reads.congr {args' : Fin 6 → ℕ} (h : Reads args argc ps b read)
    (hargs : ∀ j : Fin 6, j.val < argc → args j = args' j) : Reads args' argc ps b read := by
  obtain f | _ | seq := read
  · exact h
  · exact h
  · obtain ⟨hover, hstray, hsplit, hargc, hseq⟩ := h
    refine ⟨hover, hstray, hsplit, hargc, fun j => (hseq j).trans ?_⟩
    split_ifs with hj
    · exact hargs j hj
    · rfl

theorem Reads.next (h : Reads args (argc + 1) ps b read) (hd : Reading args argc d) :
    Reads args argc (d :: ps) b read := by
  have hover : Overflows (6 - argc) (d :: ps) ↔ Overflows (6 - (argc + 1)) ps := by
    rcases Nat.lt_or_ge argc 6 with hlt | hge
    · rw [show 6 - argc = 6 - (argc + 1) + 1 by omega, Overflows, take_succ_cons]
      simp only [Overflows, mem_cons, exists_eq_or_imp, Nat.not_le.mpr hd.small, false_or]
    · simp [Overflows, show 6 - argc = 0 by omega, show 6 - (argc + 1) = 0 by omega]
  have hstray : Strays (6 - argc) (d :: ps) ↔ Strays (6 - (argc + 1)) ps := by
    rcases Nat.lt_or_ge argc 6 with hlt | hge
    · rw [show 6 - argc = 6 - (argc + 1) + 1 by omega, Strays, drop_succ_cons]
      rfl
    · simp [Strays, show 6 - argc = 0 by omega, show 6 - (argc + 1) = 0 by omega, hd.room hge]
  obtain f | _ | seq := read
  · exact h.imp (And.imp_right hover.mpr) (And.imp_right hstray.mpr)
  · exact ⟨mt hover.mp h.1, mt hstray.mp h.2.1, h.2.2⟩
  · obtain ⟨h₁, h₂, hsplit, hargc, hargs⟩ := h
    refine ⟨mt hover.mp h₁, mt hstray.mp h₂, hsplit, ?_, fun j => ?_⟩
    · rw [hargc, length_cons]
      omega
    rw [hargs j]
    rcases Nat.lt_trichotomy j argc with hlt | heq | hgt
    · rw [if_pos (by omega), if_pos hlt]
    · rw [if_pos (by omega), if_neg (by omega), hd.args j (by omega), if_pos heq.symm]
      simp [heq]
    · rw [if_neg (by omega), if_neg (by omega), show j - argc = j - (argc + 1) + 1 by omega]
      rfl

def readFrom (args : Fin 6 → ℕ) (argc : ℕ) : List UInt8 → Except Fault (Option Sequence)
  | [] => .ok none
  | c :: u => readArgs args argc c u

theorem Reading.digit (h : Reading args argc d) (hlt : argc < 6)
    (hval : number (d ++ [c]) < 2 ^ 31) :
    Reading (Function.update args ⟨argc, hlt⟩ (number (d ++ [c]))) argc (d ++ [c]) := by
  refine ⟨hval, fun hge => by omega, fun j hj => ?_⟩
  by_cases heq : argc = j
  · have hj : j = ⟨argc, hlt⟩ := Fin.ext heq.symm
    rw [if_pos heq, hj, Function.update_self]
  · have hne : j ≠ ⟨argc, hlt⟩ := fun hj => heq (congrArg Fin.val hj).symm
    rw [if_neg heq, Function.update_of_ne hne, h.args j hj, if_neg heq]

theorem Reading.separator (h : Reading args argc d) : Reading args (argc + 1) [] := by
  refine ⟨by decide, fun _ => rfl, fun j hj => ?_⟩
  rw [h.args j (by omega), if_neg (by omega)]
  exact (ite_self 0).symm

theorem readFrom_reads (h : Reading args argc d) :
    Reads args argc ((arguments u).modifyHead (d ++ ·)) u (readFrom args argc u) := by
  induction u generalizing args argc d with
  | nil =>
    have hnil : (arguments []).modifyHead (d ++ ·) = [d] := by
      simp [arguments, argBytes, splitOn_nil]
    rw [hnil]
    have hends : Reads args (argc + 1) [] [] (readFrom args argc []) := by
      refine ⟨?_, ?_, rfl⟩ <;> simp [Overflows, Strays]
    exact hends.next h
  | cons c u ih =>
    rw [readFrom, readArgs]
    by_cases hdigit : kernelIsdigit c
    · rw [arguments_digit u hdigit, modifyHead_modifyHead]
      have hhead : (fun p => d ++ p) ∘ List.cons c = fun p => d ++ [c] ++ p := by
        funext p
        simp
      rw [hhead]
      obtain ⟨p, ps, hps⟩ := exists_cons_of_ne_nil (splitOnP_ne_nil (· == semicolon) (argBytes u))
      have hps : arguments u = p :: ps := hps
      by_cases hlt : argc < 6
      · have hargs : args ⟨argc, hlt⟩ = number d := (h.args _ (Nat.le_refl _)).trans (if_pos rfl)
        by_cases hval : number (d ++ [c]) < 2 ^ 31
        · have hturn : argsTurn args argc c =
              .ok (some (Function.update args ⟨argc, hlt⟩ (number (d ++ [c])), argc)) := by
            rw [argsTurn, if_pos hdigit, dif_pos hlt, hargs, ← number_snoc]
            exact if_pos hval
          rw [hturn]
          have hread : Reads args argc _ _ _ := ((ih (h.digit hlt hval)).cons (.inl hdigit)).congr
            fun j hj => Function.update_of_ne (by rintro rfl; exact Nat.lt_irrefl _ hj) _ _
          cases u <;> exact hread
        · have hturn : argsTurn args argc c = .error .overflow := by
            rw [argsTurn, if_pos hdigit, dif_pos hlt, hargs, ← number_snoc]
            exact if_neg hval
          rw [hturn, hps]
          refine .inl ⟨rfl, d ++ [c] ++ p, ?_, ?_⟩
          · rw [show 6 - argc = 5 - argc + 1 by omega]
            exact mem_cons_self
          · exact Nat.le_trans (Nat.not_lt.mp hval) (number_le_append _ p)
      · have hturn : argsTurn args argc c = .error .args := by
          rw [argsTurn, if_pos hdigit, dif_neg hlt]
        rw [hturn, hps]
        refine .inr ⟨rfl, d ++ [c] ++ p, ?_, by simp⟩
        rw [show 6 - argc = 0 by omega]
        exact mem_cons_self
    · by_cases hsemi : c = semicolon
      · subst hsemi
        have hturn : argsTurn args argc semicolon = .ok (some (args, argc + 1)) := by
          rw [argsTurn, if_neg hdigit, if_pos rfl]
        have hsame : (arguments u).modifyHead ([] ++ ·) = arguments u := by
          cases arguments u <;> rfl
        have hread := ((hsame ▸ ih h.separator).next h).cons (.inr rfl)
        rw [hturn, arguments_semicolon, modifyHead_cons, append_nil]
        cases u <;> exact hread
      · have hturn : argsTurn args argc c = .ok none := by
          rw [argsTurn, if_neg hdigit, if_neg hsemi]
        obtain ⟨hnone, hargs⟩ := arguments_other u (not_or.mpr ⟨hdigit, hsemi⟩)
        rw [hturn, hargs]
        have hread : Reads args (argc + 1) [] (c :: u) (.ok (some ⟨args, argc + 1, c, u⟩)) := by
          refine ⟨by simp [Overflows], by simp [Strays], by rw [hnone]; rfl, Iff.rfl, fun j => ?_⟩
          split_ifs with hj
          · rfl
          · exact h.separator.args j (by omega) |>.trans (ite_self 0)
        simpa using hread.next h

/-- A command that looks at every argument; `first` is the number of the first one. -/
def Loops (c : Char) (first : ℕ) : Prop := c = 'h' ∨ c = 'l' ∨ c = 'm' ∧ first ≠ 38 ∧ first ≠ 48

/-- A scroll area of more rows than an `int` can count -/
def Tall (c : Char) (top bottom : ℕ) : Prop := c = 'r' ∧ 2 ^ 31 ≤ (bottom - top + 1 : ℤ)

theorem selectGraphics_fault {n i : ℕ} {ops : List Display} (hi : i ≤ 6) :
    (selectGraphics beyond args n i st ops).fault = if 6 < i + n then some .args else none := by
  induction n generalizing i st ops with
  | zero => rw [if_neg (by omega)]; rfl
  | succ n ih =>
    rw [selectGraphics]
    split_ifs with hlt hroom hroom
    · rw [ih hlt, if_pos (by omega)]
    · rw [ih hlt, if_neg (by omega)]
    · rfl
    · omega

variable (beyond st) in
theorem command_fault (seq : Sequence) : (command beyond st seq).fault ≠ some .stray ∧
    ((command beyond st seq).fault = some .args ↔
      6 < seq.argc ∧ Loops (Char.ofUInt8 seq.c) (seq.args 0)) ∧
    ((command beyond st seq).fault = none ↔
      ¬ (6 < seq.argc ∧ Loops (Char.ofUInt8 seq.c) (seq.args 0)) ∧
        ¬ Tall (Char.ofUInt8 seq.c) (seq.args 0) (seq.args 1)) := by
  simp only [command, Loops, Tall]
  generalize Char.ofUInt8 seq.c = c
  split
  case h_14 =>
    split_ifs
    all_goals simp [*, Effect.call, Effect.nothing, selectGraphics_fault]
  case h_15 =>
    split_ifs with h
    · simp [Effect.call]
      omega
    · simp
      omega
  case h_18 => simp_all [Effect.nothing]
  all_goals
    try split_ifs
    all_goals simp [*, Effect.call, Effect.nothing]
  all_goals omega

theorem isalpha_of_char {ch : Char} (h : Char.ofUInt8 c = ch)
    (hch : 97 ≤ ch.toNat ∧ ch.toNat ≤ 122) : isalpha c = true := by
  have hc : c.toNat = ch.toNat := congrArg Char.toNat h
  have hlow : islower c = true := by
    simp only [islower, UInt8.le_iff_toNat_le, decide_eq_true_eq]
    exact hc ▸ hch
  rw [isalpha, hlow, Bool.or_true]

theorem privateMode_fault : (privateMode st seq).fault = none := by
  simp only [privateMode]
  split
  all_goals try split_ifs
  all_goals rfl

theorem handleCommand_error {len : ℕ} {question : Bool} :
    (handleCommand beyond st len question seq).ret = .error f ↔
      question = false ∧ (command beyond st seq).fault = some f := by
  rw [handleCommand]
  cases halpha : isalpha seq.c with
  | false =>
    refine iff_of_false (by simp) ?_
    rintro ⟨-, hfault⟩
    have hnone : (command beyond st seq).fault = none := by
      refine (command_fault _ _ seq).2.2.mpr ⟨?_, ?_⟩
      · rintro ⟨-, hc | hc | ⟨hc, -⟩⟩ <;> simp [isalpha_of_char hc] at halpha
      · rintro ⟨hc, -⟩
        simp [isalpha_of_char hc] at halpha
    cases hnone.symm.trans hfault
  | true =>
    cases question with
    | true => simp [privateMode_fault]
    | false =>
      cases hfault : (command beyond st seq).fault <;> simp [hfault]

def behindMark (u : List UInt8) : List UInt8 := if u.head? = some questionMark then u.tail else u

def Commands (P : Char → Prop) (u : List UInt8) : Prop :=
  u.head? ≠ some questionMark ∧ ∃ c rest, argBytes u ++ c :: rest = u ∧ P (Char.ofUInt8 c)

def argument (u : List UInt8) (i : ℕ) : ℕ := number ((arguments u).getD i [])

/-- An index outside `args` is used, for a digit or by a command that looks at all arguments. -/
def LeavesArgs (u : List UInt8) : Prop :=
  Strays 6 (arguments (behindMark u)) ∨
    6 < (arguments u).length ∧ Commands (Loops · (argument u 0)) u

theorem parseArgs_reads : Reads (fun _ => 0) 0 (arguments (c :: u)) (c :: u) (parseArgs c u) := by
  have hstart : Reading (fun _ => 0) 0 [] := ⟨by decide, fun _ => rfl, fun _ _ => (ite_self 0).symm⟩
  have hread := readFrom_reads (u := c :: u) hstart
  rw [show (arguments (c :: u)).modifyHead ([] ++ ·) = arguments (c :: u) by
    cases arguments (c :: u) <;> rfl] at hread
  rw [parseArgs]
  split_ifs with hc
  · exact hread
  · have hturn : argsTurn (fun _ => 0) 0 c = .ok none := by
      rw [argsTurn, if_neg (not_or.mp hc).1, if_neg (not_or.mp hc).2]
    rw [readFrom, readArgs, hturn] at hread
    obtain ⟨hover, hstray, hsplit, hargc, hargs⟩ := hread
    refine ⟨hover, hstray, hsplit, ⟨fun h => ?_, fun h => ?_⟩, hargs⟩
    · exact absurd h (by simp)
    · exact absurd (hargc.mpr h) (by simp)

theorem parseLong_reads (u : List UInt8) :
    Reads (fun _ => 0) 0 (arguments (behindMark u)) (behindMark u) (parseLong u).2 ∧
      (parseLong u).1 = decide (u.head? = some questionMark) := by
  have hnil : Reads (fun _ => 0) 0 (arguments []) [] (.ok none) := by
    simp [Reads, Overflows, Strays, arguments, argBytes, splitOn_nil, number]
  match u with
  | [] => exact ⟨hnil, rfl⟩
  | c :: rest =>
    by_cases hq : c = questionMark
    · cases rest with
      | nil => simpa [parseLong, behindMark, hq] using hnil
      | cons d rest => simpa [parseLong, behindMark, hq] using parseArgs_reads
    · simpa [parseLong, behindMark, hq] using parseArgs_reads

/-- The command behind the arguments stops for a reason that they tell. -/
theorem handleLongAt_error : (handleLongAt beyond st buffer).ret = .error f ↔
    (parseLong buffer).2 = .error f ∨ ∃ seq, (parseLong buffer).2 = .ok (some seq) ∧
      buffer.head? ≠ some questionMark ∧ (command beyond st seq).fault = some f := by
  have hmark := (parseLong_reads buffer).2
  rw [handleLongAt_eq, handleLong_eq]
  generalize parseLong buffer = part at hmark
  obtain ⟨q, f' | _ | seq⟩ := part
  · simp [finishLong]
  · simp [finishLong, more]
  · obtain rfl : q = _ := hmark
    simp [finishLong, handleCommand_error]

variable (seq) in
theorem commands_iff {P : Char → Prop} (h : argBytes buffer ++ seq.c :: seq.rest = buffer) :
    Commands P buffer ↔ buffer.head? ≠ some questionMark ∧ P (Char.ofUInt8 seq.c) := by
  refine and_congr_right fun _ => ⟨?_, fun hP => ⟨_, _, h, hP⟩⟩
  rintro ⟨c, rest, hsplit, hP⟩
  obtain ⟨rfl, -⟩ := cons_eq_cons.mp (append_cancel_left (hsplit.trans h.symm))
  exact hP

theorem no_command {P : Char → Prop} (h : argBytes (behindMark buffer) = behindMark buffer) :
    ¬ Commands P buffer := by
  rintro ⟨hq, c, rest, hsplit, -⟩
  rw [behindMark, if_neg hq] at h
  rw [h] at hsplit
  simp at hsplit

/-- The arguments, or what the command does with them, leave their room. -/
def LongUndefined (u : List UInt8) : Prop :=
  Overflows 6 (arguments (behindMark u)) ∨ LeavesArgs u ∨
    Commands (Tall · (argument u 0) (argument u 1)) u

theorem handleLong_error_iff :
    (∃ f, (handleLong beyond st buffer).ret = .error f) ↔ LongUndefined buffer := by
  have hreads := (parseLong_reads buffer).1
  simp only [← handleLongAt_eq, handleLongAt_error]
  rcases hpart : (parseLong buffer).2 with f | _ | seq <;> rw [hpart] at hreads
  · refine iff_of_true ⟨f, .inl rfl⟩ ?_
    rcases hreads with ⟨-, hover⟩ | ⟨-, hstray⟩
    · exact .inl hover
    · exact .inr (.inl (.inl hstray))
  · obtain ⟨hover, hstray, hall⟩ := hreads
    refine iff_of_false (by simp) ?_
    rintro (h | (h | h) | h)
    · exact hover h
    · exact hstray h
    · exact no_command hall h.2
    · exact no_command hall h
  · obtain ⟨hover, hstray, hsplit, hargc, hargs⟩ := hreads
    have hnone := (command_fault beyond st seq).2.2
    by_cases hq : buffer.head? = some questionMark
    · simp [LongUndefined, LeavesArgs, Commands, hover, hstray, hq]
    · rw [behindMark, if_neg hq] at hover hstray hsplit hargc hargs
      have hfirst : seq.args 0 = argument buffer 0 := hargs 0
      have hsecond : seq.args 1 = argument buffer 1 := hargs 1
      have hfault : (∃ f, (command beyond st seq).fault = some f) ↔
          ¬ (command beyond st seq).fault = none := (Option.ne_none_iff_exists' ..).symm
      rw [hnone, hfirst, hsecond, hargc] at hfault
      simp [LongUndefined, LeavesArgs, commands_iff seq hsplit, behindMark, hq, hover, hstray,
        hfault]
      tauto

/-- The bytes are always read within the buffer. As long as no `int` overflows, the arguments are
within theirs exactly if no argument after the sixth has a digit, and no command looks at more. -/
theorem long_in_bounds (beyond : ℕ → UInt32) (st : VT100State) (buffer : List UInt8) :
    (handleLongAt beyond st buffer).ret ≠ .error .stray ∧
      (¬ Overflows 6 (arguments (behindMark buffer)) →
        ((handleLongAt beyond st buffer).ret = .error .args ↔ LeavesArgs buffer)) := by
  have hreads := (parseLong_reads buffer).1
  simp only [ne_eq, handleLongAt_error]
  rcases hpart : (parseLong buffer).2 with f | _ | seq <;> rw [hpart] at hreads
  · rcases hreads with ⟨rfl, hover⟩ | ⟨rfl, hstray⟩
    · exact ⟨by simp, fun hno => absurd hover hno⟩
    · exact ⟨by simp, fun _ => iff_of_true (.inl rfl) (.inl hstray)⟩
  · obtain ⟨-, hstray, hall⟩ := hreads
    refine ⟨by simp, fun _ => iff_of_false (by simp) ?_⟩
    exact not_or.mpr ⟨hstray, fun h => no_command hall h.2⟩
  · obtain ⟨-, hstray, hsplit, hargc, hargs⟩ := hreads
    obtain ⟨hinside, hfault, -⟩ := command_fault beyond st seq
    refine ⟨by simp [hinside], fun _ => ?_⟩
    by_cases hq : buffer.head? = some questionMark
    · simp [LeavesArgs, Commands, hstray, hq]
    · rw [behindMark, if_neg hq] at hstray hsplit hargc hargs
      have hfirst : seq.args 0 = argument buffer 0 := hargs 0
      simp [LeavesArgs, commands_iff seq hsplit, behindMark, hq, hstray, hfault, hfirst, hargc]

/-- `\e[;;;;;;A` has seven arguments, of which the command uses the first. -/
theorem separators_in_bounds :
    (handleLongAt (fun _ => 0) .init [59, 59, 59, 59, 59, 59, 65]).ret ≠ .error .args := by
  have hsmall : ¬ Overflows 6 (arguments (behindMark [59, 59, 59, 59, 59, 59, 65])) := by
    unfold Overflows
    decide
  refine mt ((long_in_bounds _ _ _).2 hsmall).mp ?_
  rintro (hstray | ⟨-, hcommand⟩)
  · revert hstray
    unfold Strays
    decide
  · have hloops := ((commands_iff ⟨fun _ => 0, 7, 65, []⟩ rfl).mp hcommand).2
    revert hloops
    unfold Loops
    decide

/-- `\e[;;;;;;1` -/
theorem seventh_argument_strays :
    (handleVT100 (fun _ => 0) .init [esc, 91, 59, 59, 59, 59, 59, 59, 49]).ret = .error .args := by
  decide

end Vt100Bounds
