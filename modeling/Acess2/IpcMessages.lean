import Acess2.Workqueues

/-! The message queue of a thread (`messages.c`, and `Threads_Kill` of `threads.c`).
`Threads_Kill` frees the messages and leaves `LastMessage` at the last of them, and
`Proc_GetMessage` copies as many bytes as the buffer holds even when the message is shorter. -/
namespace IpcMessages

open Function GuardedRuns IntrusiveLists List Option ThreadsModel Workqueues

structure Letter where
  source : ℕ
  data : List UInt8
  deriving DecidableEq

/-- What `Proc_GetMessage` returns, writes to `*Source` and copies to the buffer -/
structure Reply where
  ret : ℤ
  source : Option ℕ
  copied : Option (List UInt8)
  deriving DecidableEq

structure Removal where
  letter : Letter
  wantSource : Bool
  bufSize : ℕ
  reply : Reply
  deriving DecidableEq

/-- The thread's queue among the messages at addresses `A`; `letter` is what an allocated
message holds. -/
structure State (A : Type) where
  next : A → Option A
  letter : A → Option Letter
  messages : Option A
  lastMessage : Option A
  status : ThreadStatus
  eventState : BitVec 32
  /-- messages that `Proc_SendMessage` has queued, in order -/
  accepted : List Letter
  /-- messages that `Proc_GetMessage` has removed, in order -/
  removed : List Removal

def eventIpcMsg : BitVec 32 := 0x2

variable {A : Type} [DecidableEq A]

/-- `Proc_SendMessage` to the thread; `malloc` returns `addr`. Writing to a freed message has no
result. -/
def procSendMessage (s : State A) (source : ℕ) (length : ℤ) (data : Option (ℕ → UInt8)) (addr : A) :
    Option (ℤ × State A) :=
  match data with
  | none => some (-1, s)
  | some bytes =>
    if length ≤ 0 then some (-1, s)
    -- the thread is still alive?
    else if s.status = .dead then some (-1, s)
    else do
      let msg : Letter := ⟨source, (List.range length.toNat).map bytes⟩
      let s := { s with
        next := update s.next addr none
        letter := update s.letter addr (some msg) }
      let s ← match s.lastMessage with
        | some last => do
          let _ ← s.letter last
          some { s with
            next := update s.next last (some addr)
            lastMessage := some addr }
        | none => some { s with messages := some addr, lastMessage := some addr }
      some (0, { s with
        eventState := s.eventState ||| eventIpcMsg
        accepted := s.accepted ++ [msg] })

/-- The `Buffer` of `Proc_GetMessage` -/
inductive Buffer where
  /-- NULL: only look at the length -/
  | null
  /-- `GETMSG_IGNORE` -/
  | ignore
  /-- `CheckMem` refuses it. -/
  | invalid
  /-- a buffer; `beyond` is what follows the message in memory -/
  | valid (beyond : ℕ → UInt8)

def copyBytes (data : List UInt8) (beyond : ℕ → UInt8) (n : ℕ) : List UInt8 :=
  (List.range n).map fun i => data.getD i (beyond i)

def copySize (bufSize length : ℕ) : ℕ :=
  -- Log_Notice: truncated
  if bufSize < length then bufSize
  else if bufSize < length then length
  else bufSize

/-- The end of `Proc_GetMessage`: the first message is taken off the queue and freed. -/
def removeFirst (s : State A) (head : A) (removal : Removal) : State A :=
  let rest := s.next head
  { s with
    messages := rest
    lastMessage := if rest = none then none else s.lastMessage
    eventState := if rest = none then s.eventState else s.eventState ||| eventIpcMsg
    letter := update s.letter head none
    removed := s.removed ++ [removal] }

/-- `Proc_GetMessage` by the thread; there is no result when it reads a message that has been
freed. -/
def procGetMessage (s : State A) (wantSource : Bool) (bufSize : ℕ) (buffer : Buffer) :
    Option (Reply × State A) :=
  match s.messages with
  | none => some (⟨0, none, none⟩, s)
  | some head => do
    let msg ← s.letter head
    let source := if wantSource then some msg.source else none
    let ret : ℤ := msg.data.length
    match buffer with
    | .null => some (⟨ret, source, none⟩, s)
    | .invalid => some (⟨-1, source, none⟩, s)
    | .ignore =>
      let reply : Reply := ⟨ret, source, none⟩
      some (reply, removeFirst s head ⟨msg, wantSource, bufSize, reply⟩)
    | .valid beyond =>
      let bytes := copyBytes msg.data beyond (copySize bufSize msg.data.length)
      let reply : Reply := ⟨ret, source, some bytes⟩
      some (reply, removeFirst s head ⟨msg, wantSource, bufSize, reply⟩)

def clearMessages : ℕ → State A → Option (State A)
  | 0, _ => none
  | fuel + 1, s =>
    match s.messages with
    | none => some s
    | some head => do
      let _ ← s.letter head
      clearMessages fuel { s with
        messages := s.next head
        letter := update s.letter head none }

def threadsKill [Fintype A] (s : State A) : Option (State A) :=
  (clearMessages (walkFuel A) s).map fun s => { s with status := .zombie }

inductive Op (A : Type) where
  | send (source : ℕ) (length : ℤ) (data : Option (ℕ → UInt8)) (addr : A)
  | get (wantSource : Bool) (bufSize : ℕ) (buffer : Buffer)
  | kill

def step [Fintype A] (s : State A) : Op A → Option (State A)
  | .send source length data addr => (procSendMessage s source length data addr).map Prod.snd
  | .get wantSource bufSize buffer => (procGetMessage s wantSource bufSize buffer).map Prod.snd
  | .kill => threadsKill s

def Fresh (s : State A) : Op A → Prop
  | .send _ _ _ addr => s.letter addr = none
  | _ => True

/-- `queue` is what the walk from `Messages` meets. -/
structure WellFormed (s : State A) (queue : List A) : Prop where
  walk : Linked s.next s.messages queue
  last : s.lastMessage = queue.getLast?
  allocated : ∀ a ∈ queue, s.letter a ≠ none

structure Faithful (r : Removal) : Prop where
  ret : r.reply.ret = r.letter.data.length
  source : r.reply.source = if r.wantSource then some r.letter.source else none
  copied : ∀ bytes, r.reply.copied = some bytes →
    bytes = r.letter.data.take (min r.bufSize r.letter.data.length)

/-- The queue is well formed, and messages leave it as they came, in order, each once. -/
def Sound (s : State A) : Prop :=
  (∃ queue, WellFormed s queue ∧
    (s.removed.map Removal.letter ++ queue.filterMap s.letter).Sublist s.accepted) ∧
  ∀ r ∈ s.removed, Faithful r

/-- The thread is killed with no message queued, and reads into buffers that are no larger than
the message. -/
def Meets (s : State A) : Op A → Prop
  | .send _ _ _ _ => True
  | .get _ bufSize (.valid _) => ∀ msg ∈ s.messages.bind s.letter, bufSize ≤ msg.data.length
  | .get _ _ _ => True
  | .kill => s.messages = none

variable {s s' : State A} {queue : List A} {a : A}

def ends (s : State A) : Unit → Ends A := fun _ => ⟨s.messages, s.lastMessage⟩

structure Inv (s : State A) (queue : List A) : Prop where
  holds : Holds s.next (ends s) fun _ => queue
  last : s.lastMessage = queue.getLast?
  allocated : ∀ a ∈ queue, s.letter a ≠ none
  order : s.accepted = s.removed.map Removal.letter ++ queue.filterMap s.letter
  faithful : ∀ r ∈ s.removed, Faithful r

omit [DecidableEq A] in
theorem Inv.sound (h : Inv s queue) : Sound s := by
  refine ⟨⟨queue, ⟨h.holds.linked (), h.last, h.allocated⟩, ?_⟩, h.faithful⟩
  rw [h.order]

theorem send_inv (h : Inv s queue) (source : ℕ) (length : ℤ) (data : Option (ℕ → UInt8))
    (hfresh : s.letter a = none) :
    ∃ r s' queue', procSendMessage s source length data a = some (r, s') ∧ Inv s' queue' := by
  have hoff : a ∉ queue := fun ha => h.allocated a ha hfresh
  cases data with
  | none => exact ⟨-1, s, queue, rfl, h⟩
  | some bytes =>
    by_cases hlength : length ≤ 0
    · exact ⟨-1, s, queue, if_pos hlength, h⟩
    by_cases hdead : s.status = .dead
    · exact ⟨-1, s, queue, (if_neg hlength).trans (if_pos hdead), h⟩
    let msg : Letter := ⟨source, (range length.toNat).map bytes⟩
    have hsend : procSendMessage s source length (some bytes) a = some (0, { s with
        next := enqueueLinks s.next (ends s ()) a
        letter := update s.letter a (some msg)
        messages := (enqueueEnds (ends s ()) a).head
        lastMessage := (enqueueEnds (ends s ()) a).tail
        eventState := s.eventState ||| eventIpcMsg
        accepted := s.accepted ++ [msg] }) := by
      refine (if_neg hlength).trans ((if_neg hdead).trans ?_)
      cases hlast : s.lastMessage with
      | none => simp [ends, enqueueLinks, enqueueEnds, hlast, msg]
      | some last =>
        have hmem : last ∈ queue := mem_of_getLast? (h.last.symm.trans hlast)
        have hne : last ≠ a := by
          rintro rfl
          exact hoff hmem
        obtain ⟨l, hl⟩ := ne_none_iff_exists'.mp (h.allocated last hmem)
        simp [ends, enqueueLinks, enqueueEnds, hlast, hne, hl, msg,
          update_comm hne.symm none (some a) s.next]
    have hholds : Holds (enqueueLinks s.next (ends s ()) a)
        (update (ends s) () (enqueueEnds (ends s ()) a))
        (update (fun _ => queue) () (queue ++ [a])) :=
      enqueue_holds h.holds h.last fun _ => hoff
    have hletters : (queue ++ [a]).filterMap (update s.letter a (some msg)) =
        queue.filterMap s.letter ++ [msg] := by
      rw [filterMap_append]
      refine congrArg₂ (· ++ ·) (filterMap_congr fun b hb => ?_) (by simp)
      refine update_of_ne ?_ _ _
      rintro rfl
      exact hoff hb
    refine ⟨0, _, queue ++ [a], hsend, ?_⟩
    constructor
    case holds => exact hholds
    case last => exact (enqueueEnds_tail _ _).trans getLast?_concat.symm
    case allocated =>
      intro b hb
      change update s.letter a (some msg) b ≠ none
      by_cases hba : b = a
      · simp [hba]
      · rw [update_of_ne hba]
        refine h.allocated b ((mem_append.mp hb).resolve_right fun hb => ?_)
        exact hba (mem_singleton.mp hb)
    case order =>
      change s.accepted ++ [msg] = _ ++ _
      rw [hletters, h.order, append_assoc]
    case faithful => exact h.faithful

variable {msg : Letter} {bufSize : ℕ} {wantSource : Bool}

theorem removeFirst_inv (h : Inv s (a :: queue)) (hmsg : s.letter a = some msg)
    {r : Removal} (hr : r.letter = msg) (hfaithful : Faithful r) :
    Inv (removeFirst s a r) queue := by
  have hlinked : Linked s.next s.messages (a :: queue) := h.holds.linked ()
  have hnext : s.next a = queue.head? := hlinked.2.head_eq
  have hoff : a ∉ queue := (nodup_cons.mp (h.holds.nodup ())).1
  have hkeep (b : A) (hb : b ∈ queue) : update s.letter a none b = s.letter b := by
    refine update_of_ne ?_ _ _
    rintro rfl
    exact hoff hb
  have hlast : (if s.next a = none then none else s.lastMessage) = queue.getLast? := by
    rw [hnext, h.last]
    cases queue with
    | nil => rfl
    | cons b bs => exact (if_neg (by simp)).trans getLast?_cons_cons
  constructor
  case holds =>
    have hholds : Holds s.next (update (ends s) () ⟨s.next a,
          if s.next a = none then none else s.lastMessage⟩)
        (update (fun _ => a :: queue) () queue) :=
      h.holds.pop rfl (fun _ _ => rfl) hnext fun _ => hlast
    exact hholds
  case last => exact hlast
  case allocated =>
    intro b hb
    change update s.letter a none b ≠ none
    rw [hkeep b hb]
    exact h.allocated b (mem_cons_of_mem a hb)
  case order =>
    change s.accepted = (s.removed ++ [r]).map Removal.letter ++ _
    rw [h.order, filterMap_cons_some hmsg, map_append, append_assoc]
    refine congrArg (_ ++ ·) ?_
    change msg :: _ = r.letter :: _
    rw [hr]
    exact congrArg (msg :: ·) (filterMap_congr fun b hb => (hkeep b hb).symm)
  case faithful =>
    intro r' hr'
    rcases mem_append.mp hr' with hr' | hr'
    · exact h.faithful r' hr'
    · exact mem_singleton.mp hr' ▸ hfaithful

theorem copySize_eq (bufSize length : ℕ) : copySize bufSize length = bufSize := by
  rw [copySize]
  split
  · rfl
  · rfl

theorem length_copyBytes (data : List UInt8) (beyond : ℕ → UInt8) (n : ℕ) :
    (copyBytes data beyond n).length = n := by
  rw [copyBytes, length_map, length_range]

theorem copyBytes_le {data : List UInt8} {n : ℕ} (beyond : ℕ → UInt8) (h : n ≤ data.length) :
    copyBytes data beyond n = data.take n := by
  refine ext_getElem ?_ fun i hi _ => ?_
  · rw [length_copyBytes, length_take, min_eq_left h]
  · rw [length_copyBytes] at hi
    have hdata : i < data.length := lt_of_lt_of_le hi h
    simp [copyBytes, hdata]

theorem faithful_read_iff (beyond : ℕ → UInt8) :
    Faithful ⟨msg, wantSource, bufSize, ⟨msg.data.length,
      if wantSource then some msg.source else none,
      some (copyBytes msg.data beyond (copySize bufSize msg.data.length))⟩⟩ ↔
    bufSize ≤ msg.data.length := by
  constructor
  · intro h
    have hlength := congrArg length (h.copied _ rfl)
    rw [length_copyBytes, copySize_eq, length_take] at hlength
    dsimp only at hlength
    omega
  · intro hle
    refine ⟨rfl, rfl, fun bytes hbytes => ?_⟩
    cases hbytes
    rw [copySize_eq, copyBytes_le beyond hle, min_eq_left hle]

theorem procGetMessage_valid (hhead : s.messages = some a)
    (hmsg : s.letter a = some msg) (wantSource : Bool) (bufSize : ℕ) (beyond : ℕ → UInt8) :
    ∃ reply, procGetMessage s wantSource bufSize (.valid beyond) =
        some (reply, removeFirst s a ⟨msg, wantSource, bufSize, reply⟩) ∧
      (Faithful ⟨msg, wantSource, bufSize, reply⟩ ↔ bufSize ≤ msg.data.length) := by
  refine ⟨_, ?_, faithful_read_iff beyond⟩
  simp [procGetMessage, hhead, hmsg]

theorem get_inv (h : Inv s queue) {buffer : Buffer}
    (hmeets : Meets s (.get wantSource bufSize buffer)) :
    ∃ r s' queue', procGetMessage s wantSource bufSize buffer = some (r, s') ∧ Inv s' queue' := by
  have hhead : s.messages = queue.head? := h.holds.head_eq ()
  cases queue with
  | nil =>
    refine ⟨⟨0, none, none⟩, s, [], ?_, h⟩
    rw [procGetMessage, hhead]
    rfl
  | cons a queue =>
    obtain ⟨msg, hmsg⟩ := ne_none_iff_exists'.mp (h.allocated a mem_cons_self)
    have hmessages : s.messages = some a := hhead
    cases buffer with
    | null =>
      refine ⟨⟨msg.data.length, if wantSource then some msg.source else none, none⟩, s,
        a :: queue, ?_, h⟩
      simp [procGetMessage, hmessages, hmsg]
    | invalid =>
      refine ⟨⟨-1, if wantSource then some msg.source else none, none⟩, s, a :: queue, ?_, h⟩
      simp [procGetMessage, hmessages, hmsg]
    | ignore =>
      let reply : Reply := ⟨msg.data.length, if wantSource then some msg.source else none, none⟩
      refine ⟨reply, removeFirst s a ⟨msg, wantSource, bufSize, reply⟩, queue, ?_, ?_⟩
      · simp [procGetMessage, hmessages, hmsg, reply]
      · exact removeFirst_inv h hmsg rfl ⟨rfl, rfl, fun _ hbytes => (by cases hbytes)⟩
    | valid beyond =>
      obtain ⟨reply, hget, hiff⟩ := procGetMessage_valid hmessages hmsg wantSource bufSize beyond
      have hle : bufSize ≤ msg.data.length := by
        refine hmeets msg ?_
        rw [hmessages]
        exact hmsg
      exact ⟨reply, _, queue, hget, removeFirst_inv h hmsg rfl (hiff.mpr hle)⟩

theorem clearMessages_last {fuel : ℕ} (h : clearMessages fuel s = some s') :
    s'.messages = none ∧ s'.lastMessage = s.lastMessage := by
  induction fuel generalizing s with
  | zero => cases h
  | succ n ih =>
    rw [clearMessages] at h
    split at h
    · rename_i hnone
      cases h
      exact ⟨hnone, rfl⟩
    · obtain ⟨msg, -, hrest⟩ := bind_eq_some_iff.mp h
      obtain ⟨hnone, hlast⟩ := ih hrest
      exact ⟨hnone, hlast⟩

variable [Fintype A]

theorem step_inv (s : State A) (op : Op A) (h : ∃ queue, Inv s queue) (hfresh : Fresh s op)
    (hmeets : Meets s op) : ∃ s', step s op = some s' ∧ ∃ queue, Inv s' queue := by
  obtain ⟨queue, h⟩ := h
  cases op with
  | send source length data addr =>
    obtain ⟨r, s', queue', hsend, hinv⟩ := send_inv h source length data hfresh
    exact ⟨s', map_eq_some_iff.mpr ⟨_, hsend, rfl⟩, queue', hinv⟩
  | get wantSource bufSize buffer =>
    obtain ⟨r, s', queue', hget, hinv⟩ := get_inv h hmeets
    exact ⟨s', map_eq_some_iff.mpr ⟨_, hget, rfl⟩, queue', hinv⟩
  | kill =>
    have hempty : s.messages = none := hmeets
    have hclear : clearMessages (walkFuel A) s = some s := by
      rw [walkFuel, clearMessages, hempty]
    exact ⟨{ s with status := .zombie }, map_eq_some_iff.mpr ⟨s, hclear, rfl⟩, queue, h.holds,
      h.last, h.allocated, h.order, h.faithful⟩

theorem meets_of_sound (s : State A) (op : Op A) (t : State A) (h : ∃ queue, Inv s queue)
    (_ : Fresh s op) (hstep : step s op = some t) (hsound : Sound t) : Meets s op := by
  obtain ⟨queue, h⟩ := h
  cases op with
  | send source length data addr => trivial
  | get wantSource bufSize buffer =>
    cases buffer with
    | null => trivial
    | ignore => trivial
    | invalid => trivial
    | valid beyond =>
      intro msg hmsg
      obtain ⟨a, ha, hletter⟩ := bind_eq_some_iff.mp hmsg
      obtain ⟨reply, hget, hiff⟩ := procGetMessage_valid ha hletter wantSource bufSize beyond
      rw [step, hget] at hstep
      cases hstep
      exact hiff.mp (hsound.2 _ (mem_append_right _ (mem_singleton_self _)))
  | kill =>
    obtain ⟨s', hclear, rfl⟩ := map_eq_some_iff.mp hstep
    obtain ⟨hnone, hlast⟩ := clearMessages_last hclear
    obtain ⟨⟨rest, hrest, -⟩, -⟩ := hsound
    have hempty : rest = [] := by
      cases rest with
      | nil => rfl
      | cons b rest => cases hnone.symm.trans hrest.walk.1
    have hlast' : s.lastMessage = none := by
      rw [← hlast]
      exact hrest.last.trans (by rw [hempty]; rfl)
    have hqueue : queue = [] := getLast?_eq_none_iff.mp (h.last.symm.trans hlast')
    have hhead : s.messages = queue.head? := h.holds.head_eq ()
    rw [hqueue] at hhead
    exact hhead

structure Start (s : State A) : Prop where
  messages : s.messages = none
  lastMessage : s.lastMessage = none
  accepted : s.accepted = []
  removed : s.removed = []

omit [DecidableEq A] [Fintype A] in
theorem Start.inv (h : Start s) : Inv s [] := by
  constructor
  case holds =>
    constructor
    case linked => exact fun _ => h.messages
    case nodup => exact fun _ => nodup_nil
    case apart => exact fun _ _ => rfl
    case tail => exact fun _ hne => absurd rfl hne
  case last => exact h.lastMessage
  case allocated => exact fun _ ha => (by cases ha)
  case order =>
    rw [h.accepted, h.removed]
    rfl
  case faithful =>
    rw [h.removed]
    exact fun _ hr => (by cases hr)

/-- A run reaches only sound states exactly when all of its steps meet the condition. -/
theorem messages_sound_iff {ops : List (Op A)} (hstart : Start s)
    (hfresh : Along step Fresh s ops) :
    Along step Meets s ops ↔ ∀ ops', ops' <+: ops → ∃ s', run step s ops' = some s' ∧ Sound s' := by
  refine along_iff_prefixes step_inv ?_ meets_of_sound ⟨[], hstart.inv⟩ hfresh
  rintro s ⟨queue, hinv⟩
  exact hinv.sound

instance (s : State A) : DecidablePred (Fresh s) := fun c => by
  cases c <;> dsimp only [Fresh] <;> infer_instance

instance (s : State A) : DecidablePred (Meets s)
  | .send _ _ _ _ => isTrue trivial
  | .get _ bufSize (.valid _) =>
    inferInstanceAs (Decidable (∀ msg ∈ s.messages.bind s.letter, bufSize ≤ msg.data.length))
  | .get _ _ .null | .get _ _ .ignore | .get _ _ .invalid => isTrue trivial
  | .kill => inferInstanceAs (Decidable (s.messages = none))

def sampleState : State (Fin 2) :=
  { next := fun _ => none, letter := fun _ => none, messages := none, lastMessage := none
    status := .active, eventState := 0, accepted := [], removed := [] }

theorem sampleState_start : Start sampleState := by
  constructor
  all_goals rfl

def sampleSend (addr : Fin 2) : Op (Fin 2) := .send 7 3 (some fun i => UInt8.ofNat (i + 1)) addr

def sampleOps : List (Op (Fin 2)) :=
  [sampleSend 0, sampleSend 1, .get true 0 .null, .get true 2 (.valid fun _ => 0),
    .get false 0 .ignore, .kill]

theorem sample_messages_sound : ∃ s, run step sampleState sampleOps = some s ∧ Sound s ∧
    s.removed.map (fun r => r.reply.copied) = [some [1, 2], none] := by
  have hfresh : Along step Fresh sampleState sampleOps := by decide +kernel
  have hmeets : Along step Meets sampleState sampleOps := by decide +kernel
  obtain ⟨s, hs, hsound⟩ := (messages_sound_iff sampleState_start hfresh).mp hmeets sampleOps
    prefix_rfl
  have heval : (run step sampleState sampleOps).map
      (fun s => s.removed.map fun r => r.reply.copied) = some [some [1, 2], none] := by
    decide +kernel
  rw [hs] at heval
  exact ⟨s, hs, hsound, some.inj heval⟩

/-- A kill leaves `LastMessage` behind, and a read into five bytes copies more than the message. -/
theorem kill_and_read_unsound :
    (run step sampleState [sampleSend 0, .kill]).map (fun s => (s.messages, s.lastMessage)) =
      some (none, some 0) ∧
    (run step sampleState [sampleSend 0, .get true 5 (.valid fun _ => 9)]).map
      (fun s => s.removed.map fun r => (r.reply.ret, r.reply.copied)) =
        some [(3, some [1, 2, 3, 9, 9])] := by
  decide +kernel

end IpcMessages
