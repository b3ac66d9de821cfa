import Mathlib.Algebra.Order.Ring.Int
import Acess2.GuardedRuns
import Acess2.IntrusiveLists

/-! Datagram channels between a server and its clients (`drv/dgram_pipe.c`).
A channel has two endpoints, each with a queue of packets for the other side. The channels of a
server are linked through `Next`; `Prev` is never set. `ByteCount` only grows. -/
namespace DgramPipes

open Function GuardedRuns IntrusiveLists List Option Nat

abbrev Packet := List UInt8

inductive Side where
  | server
  | client
  deriving DecidableEq

def Side.other : Side → Side
  | .server => .client
  | .client => .server

/-- `tIPCPipe_Endpoint`: the packets from `OutHead` on, and of its node whether `ImplPtr` is set
and the three flags -/
structure Endpoint where
  out : List Packet
  byteCount : ℕ
  isOpen : Bool
  available : Bool
  full : Bool
  error : Bool

structure Channel where
  next : Option ℕ
  prev : Option ℕ
  serverEP : Endpoint
  clientEP : Endpoint

def Channel.ep (ch : Channel) : Side → Endpoint
  | .server => ch.serverEP
  | .client => ch.clientEP

def Channel.setEp (ch : Channel) (e : Endpoint) : Side → Channel
  | .server => { ch with serverEP := e }
  | .client => { ch with clientEP := e }

/-- What stays the same for a server, and the width of a `size_t` -/
structure Limits where
  maxBlockSize : ℕ
  queueByteLimit : ℕ
  width : ℕ

/-- The server and its channels, with the packets sent on an endpoint, and for each that was
delivered the length asked for and the bytes -/
structure System where
  firstClient : Option ℕ
  lastClient : Option ℕ
  firstUnseenClient : Option ℕ
  mem : ℕ → Option Channel
  sent : ℕ × Side → List Packet
  delivered : ℕ × Side → List (ℕ × Packet)

inductive Wait where
  | failed
  | error
  | ready
  deriving DecidableEq

def newEndpoint : Endpoint := ⟨[], 0, true, false, false, false⟩

def newChannel : Channel := ⟨none, none, newEndpoint, newEndpoint⟩

def System.set (s : System) (a : ℕ) (ch : Channel) : System :=
  { s with mem := update s.mem a (some ch) }

/-- `IPCPipe_Root_FindDir`: a new channel, at an address from `calloc` -/
def ipcPipeRootFindDir (s : System) (a : ℕ) : Option System :=
  let s := { s.set a newChannel with
    sent := fun key => if key.1 = a then [] else s.sent key
    delivered := fun key => if key.1 = a then [] else s.delivered key
    firstUnseenClient := s.firstUnseenClient.or (some a) }
  match s.lastClient with
  | some last => (s.mem last).map fun ch =>
      { s.set last { ch with next := some a } with lastClient := some a }
  | none => some { s with firstClient := some a, lastClient := some a }

/-- `IPCPipe_Server_FindDir` for "newclient": the channel whose `ServerEP` is returned -/
def ipcPipeServerFindDir (s : System) : Option (Option ℕ × System) :=
  match s.firstUnseenClient with
  | none => some (none, s)
  | some conn => (s.mem conn).map fun ch => (some conn, { s with firstUnseenClient := ch.next })

def Channel.pop (ch : Channel) (side : Side) : Channel :=
  let rep := ch.ep side.other
  let popped := ch.setEp { rep with out := rep.out.tail, full := false } side.other
  popped.setEp { popped.ep side with available := !rep.out.tail.isEmpty } side

/-- `IPCPipe_Client_Read`: what it copies, `none` for -1 -/
def ipcPipeClientRead (s : System) (a : ℕ) (side : Side) (length : ℕ) (wait : Wait) :
    Option (Option Packet × System) :=
  (s.mem a).map fun ch =>
    if (ch.ep side).isOpen = false ∨ wait ≠ .ready ∨ (ch.ep side.other).isOpen = false then
      (none, s)
    else
      match (ch.ep side.other).out with
      | [] => (some [], s.set a (ch.pop side))
      | pkt :: _ => (some (pkt.take length), { s.set a (ch.pop side) with
          delivered := update s.delivered (a, side.other)
            (s.delivered (a, side.other) ++ [(length, pkt.take length)]) })

def Channel.push (ch : Channel) (l : Limits) (side : Side) (src : Packet) : Channel :=
  let lep := ch.ep side
  let byteCount := (lep.byteCount + src.length) % 2 ^ l.width
  let full := if byteCount ≥ l.queueByteLimit then true else lep.full
  let pushed := ch.setEp { lep with out := lep.out ++ [src], byteCount, full } side
  pushed.setEp { pushed.ep side.other with available := true } side.other

/-- `IPCPipe_Client_Write`: what it returns, `none` for -1 -/
def ipcPipeClientWrite (l : Limits) (s : System) (a : ℕ) (side : Side) (src : Packet)
    (wait : Wait) : Option (Option ℕ × System) :=
  (s.mem a).map fun ch =>
    if (ch.ep side).isOpen = false then (none, s)
    else if src.length > l.maxBlockSize then (some 0, s)
    else if wait ≠ .ready then (none, s)
    else
      (some src.length, { s.set a (ch.push l side src) with
        sent := update s.sent (a, side) (s.sent (a, side) ++ [src]) })

def linkForward (s : System) (ch : Channel) : Option System :=
  match ch.prev with
  | some prev => (s.mem prev).map fun p => s.set prev { p with next := ch.next }
  | none => some { s with firstClient := ch.next }

def linkBackward (s : System) (ch : Channel) : Option System :=
  match ch.next with
  | some next => (s.mem next).map fun n => s.set next { n with prev := ch.prev }
  | none => some { s with lastClient := ch.prev }

def unlink (s : System) (a : ℕ) (ch : Channel) : Option System :=
  ((linkForward s ch).bind fun s => linkBackward s ch).map fun s =>
    { s with
      firstUnseenClient := if s.firstUnseenClient = some a then ch.next else s.firstUnseenClient
      mem := update s.mem a none }

def Channel.close (ch : Channel) (side : Side) : Channel :=
  let closed := ch.setEp { ch.ep side with isOpen := false, out := [] } side
  closed.setEp { closed.ep side.other with error := true } side.other

def ipcPipeClientClose (s : System) (a : ℕ) (side : Side) : Option System :=
  (s.mem a).bind fun ch =>
    if (ch.ep side).isOpen = false then some s
    else
      if (ch.ep side.other).isOpen then some (s.set a (ch.close side))
      else unlink (s.set a (ch.close side)) a (ch.close side)

inductive Op where
  | connect (a : ℕ)
  | accept
  | read (a : ℕ) (side : Side) (length : ℕ) (wait : Wait)
  | write (a : ℕ) (side : Side) (src : Packet) (wait : Wait)
  | close (a : ℕ) (side : Side)

def step (l : Limits) (s : System) : Op → Option System
  | .connect a => ipcPipeRootFindDir s a
  | .accept => (ipcPipeServerFindDir s).map (·.2)
  | .read a side length wait => (ipcPipeClientRead s a side length wait).map (·.2)
  | .write a side src wait => (ipcPipeClientWrite l s a side src wait).map (·.2)
  | .close a side => ipcPipeClientClose s a side

def newServer : System := ⟨none, none, none, fun _ => none, fun _ => [], fun _ => []⟩

variable (l : Limits) (s : System)

def Open (a : ℕ) (side : Side) : Prop := ∃ ch, s.mem a = some ch ∧ (ch.ep side).isOpen = true

/-- New channels are at free addresses; the other calls are on endpoints that are open. -/
def allowed : Op → Prop
  | .connect a => s.mem a = none
  | .accept => True
  | .read a side _ _ => Open s a side
  | .write a side _ _ => Open s a side
  | .close a side => Open s a side

/-- The packets are delivered in order, each once, up to the length that was asked for. -/
def Delivers : Prop :=
  ∀ key (i : ℕ) length bytes, (s.delivered key)[i]? = some (length, bytes) →
    ∃ pkt : Packet, (s.sent key)[i]? = some pkt ∧ bytes = pkt.take length

def nextOf (a : ℕ) : Option ℕ := (s.mem a).bind Channel.next

/-- The list from `FirstClient` to `LastClient` has the channels with an open endpoint. -/
def Listed : Prop :=
  ∃ xs : List ℕ, Linked (nextOf s) s.firstClient xs ∧ s.lastClient = xs.getLast? ∧ xs.Nodup ∧
    ∀ a, a ∈ xs ↔ ∃ side, Open s a side

def queued (e : Endpoint) : ℕ := (e.out.map List.length).sum

def Counted : Prop :=
  ∀ a ch side, s.mem a = some ch → (ch.ep side).byteCount = queued (ch.ep side)

def Flowing : Prop :=
  ∀ a ch side, s.mem a = some ch → (ch.ep side).full = true → l.queueByteLimit ≤ queued (ch.ep side)

def listGuard : Op → Prop
  | .close a side => Open s a side.other ∨ s.firstClient = some a
  | _ => True

/-- No byte leaves a queue, and none is too many for `ByteCount`. -/
def byteGuard : Op → Prop
  | .read a side _ wait => ∀ ch, s.mem a = some ch → wait = .ready →
      ∀ pkt ∈ (ch.ep side.other).out.head?, pkt.length = 0
  | .write a side src wait => ∀ ch, s.mem a = some ch → wait = .ready →
      src.length ≤ l.maxBlockSize → queued (ch.ep side) + src.length < 2 ^ l.width
  | .close a side => ∀ ch, s.mem a = some ch → Open s a side.other → queued (ch.ep side) = 0
  | _ => True

instance decidableOpen (a : ℕ) (side : Side) : Decidable (Open s a side) :=
  inferInstanceAs (Decidable (∃ ch ∈ s.mem a, (ch.ep side).isOpen = true))

instance decidableAllowed : DecidablePred (allowed s) := fun c => by
  cases c <;> dsimp only [allowed] <;> infer_instance

instance decidableListGuard : DecidablePred (listGuard s) := fun c => by
  cases c <;> dsimp only [listGuard] <;> infer_instance

variable {ch : Channel} {side : Side} {e : Endpoint} {l} {src : Packet}

theorem side_cases (side side' : Side) : side' = side ∨ side' = side.other := by
  cases side <;> cases side' <;> simp [Side.other]

theorem other_ne (side : Side) : side.other ≠ side := by
  cases side <;> simp [Side.other]

theorem key_ne (a : ℕ) (side : Side) : (a, side) ≠ (a, side.other) := fun heq =>
  other_ne side (Prod.mk.inj heq).2.symm

@[simp] theorem ep_setEp : (ch.setEp e side).ep side = e := by cases side <;> rfl

@[simp] theorem ep_other_setEp : (ch.setEp e side).ep side.other = ch.ep side.other := by
  cases side <;> rfl

@[simp] theorem ep_setEp_other : (ch.setEp e side.other).ep side = ch.ep side := by
  cases side <;> rfl

@[simp] theorem next_setEp : (ch.setEp e side).next = ch.next := by cases side <;> rfl

@[simp] theorem prev_setEp : (ch.setEp e side).prev = ch.prev := by cases side <;> rfl

@[simp] theorem pop_ep : (ch.pop side).ep side =
    { ch.ep side with available := !(ch.ep side.other).out.tail.isEmpty } := by
  simp [Channel.pop]

@[simp] theorem pop_other : (ch.pop side).ep side.other =
    { ch.ep side.other with out := (ch.ep side.other).out.tail, full := false } := by
  simp [Channel.pop]

@[simp] theorem push_ep : (ch.push l side src).ep side = { ch.ep side with
      out := (ch.ep side).out ++ [src]
      byteCount := ((ch.ep side).byteCount + src.length) % 2 ^ l.width
      full := if ((ch.ep side).byteCount + src.length) % 2 ^ l.width ≥ l.queueByteLimit then true
        else (ch.ep side).full } := by
  simp [Channel.push]

@[simp] theorem push_other : (ch.push l side src).ep side.other =
    { ch.ep side.other with available := true } := by
  simp [Channel.push]

@[simp] theorem close_ep : (ch.close side).ep side =
    { ch.ep side with isOpen := false, out := [] } := by
  simp [Channel.close]

@[simp] theorem close_other : (ch.close side).ep side.other =
    { ch.ep side.other with error := true } := by
  simp [Channel.close]

@[simp] theorem pop_links : (ch.pop side).next = ch.next ∧ (ch.pop side).prev = ch.prev := by
  simp [Channel.pop]

@[simp] theorem push_links :
    (ch.push l side src).next = ch.next ∧ (ch.push l side src).prev = ch.prev := by
  simp [Channel.push]

@[simp] theorem close_links : (ch.close side).next = ch.next ∧ (ch.close side).prev = ch.prev := by
  simp [Channel.close]

section Streams

variable {sent : List Packet} {delivered : List (ℕ × Packet)} {e' : Endpoint}

structure Stream (sent : List Packet) (delivered : List (ℕ × Packet)) (e : Endpoint) : Prop where
  delivers : ∀ (i : ℕ) length bytes, delivered[i]? = some (length, bytes) →
    ∃ pkt : Packet, sent[i]? = some pkt ∧ bytes = pkt.take length
  rest : e.isOpen = true → sent.drop delivered.length = e.out
  closed : e.isOpen = false → e.out = []

variable (h : Stream sent delivered e)
include h

theorem Stream.same (hout : e'.out = e.out)
    (hopen : e'.isOpen = e.isOpen) : Stream sent delivered e' := by
  constructor
  case delivers => exact h.delivers
  case rest => rw [hout, hopen]; exact h.rest
  case closed => rw [hout, hopen]; exact h.closed

theorem Stream.length_le : delivered.length ≤ sent.length := by
  rcases Nat.eq_zero_or_pos delivered.length with hzero | hpos
  · omega
  · have hlast : delivered[delivered.length - 1]? = some delivered[delivered.length - 1] :=
      getElem?_eq_getElem (by omega)
    obtain ⟨pkt, hpkt, -⟩ := h.delivers _ _ _ hlast
    have := (List.getElem?_eq_some_iff.mp hpkt).1
    omega

theorem Stream.push (hout : e'.out = e.out ++ [src])
    (hopen : e.isOpen = true) (hopen' : e'.isOpen = true) :
    Stream (sent ++ [src]) delivered e' := by
  constructor
  case delivers =>
    intro i length bytes hi
    obtain ⟨pkt, hpkt, hbytes⟩ := h.delivers i length bytes hi
    have hlt := (List.getElem?_eq_some_iff.mp hpkt).1
    exact ⟨pkt, by rwa [getElem?_append_left hlt], hbytes⟩
  case rest =>
    intro _
    rw [drop_append_of_le_length h.length_le, h.rest hopen, hout]
  case closed =>
    intro hclosed
    cases hclosed.symm.trans hopen'

theorem Stream.pop {pkt : Packet} {rest : List Packet}
    (hout : e.out = pkt :: rest) (hout' : e'.out = rest) (hopen : e.isOpen = true)
    (hopen' : e'.isOpen = true) (length : ℕ) :
    Stream sent (delivered ++ [(length, pkt.take length)]) e' := by
  have hdrop := h.rest hopen
  rw [hout] at hdrop
  have hhead : sent[delivered.length]? = some pkt := by
    have hget : (sent.drop delivered.length)[0]? = some pkt := by rw [hdrop]; rfl
    rwa [getElem?_drop, add_zero] at hget
  constructor
  case delivers =>
    intro i length' bytes hi
    by_cases hlt : i < delivered.length
    · rw [getElem?_append_left hlt] at hi
      exact h.delivers i length' bytes hi
    obtain ⟨hzero, heq⟩ := List.getElem?_eq_some_iff.mp hi
    have hi' : i = delivered.length := by
      simp at hzero
      omega
    subst hi'
    simp at heq
    exact ⟨pkt, hhead, by rw [← heq.2, heq.1]⟩
  case rest =>
    intro _
    rw [length_append, ← drop_drop, hdrop, hout']
    rfl
  case closed =>
    intro hclosed
    cases hclosed.symm.trans hopen'

theorem Stream.close (hout : e'.out = [])
    (hclosed : e'.isOpen = false) : Stream sent delivered e' := by
  constructor
  case delivers => exact h.delivers
  case rest => intro hopen; rw [hclosed] at hopen; cases hopen
  case closed => exact fun _ => hout

end Streams

variable {s} {a : ℕ} {ch' : Channel} {sent' : ℕ × Side → List Packet}
  {delivered' : ℕ × Side → List (ℕ × Packet)}

structure Inv (s : System) : Prop where
  listed : ∃ xs : List ℕ, Linked (nextOf s) s.firstClient xs ∧ s.lastClient = xs.getLast? ∧
    xs.Nodup ∧ ∀ a, a ∈ xs ↔ (s.mem a).isSome
  unseen : ∀ a, s.firstUnseenClient = some a → (s.mem a).isSome
  prev : ∀ a ch, s.mem a = some ch → ch.prev = none
  anyOpen : ∀ a ch, s.mem a = some ch → ∃ side, (ch.ep side).isOpen = true
  streams : ∀ a ch side, s.mem a = some ch →
    Stream (s.sent (a, side)) (s.delivered (a, side)) (ch.ep side)
  delivers : Delivers s

theorem set_self : (s.set a ch).mem a = some ch := update_self ..

theorem set_of_ne {b : ℕ} (hb : b ≠ a) : (s.set a ch).mem b = s.mem b :=
  update_of_ne hb _ _

theorem Inv.listed_open (h : Inv s) : Listed s := by
  obtain ⟨xs, hlinked, hlast, hnodup, hmem⟩ := h.listed
  refine ⟨xs, hlinked, hlast, hnodup, fun a => (hmem a).trans ?_⟩
  constructor
  · intro hsome
    obtain ⟨ch, hch⟩ := isSome_iff_exists.mp hsome
    obtain ⟨side, hopen⟩ := h.anyOpen a ch hch
    exact ⟨side, ch, hch, hopen⟩
  · rintro ⟨side, ch, hch, -⟩
    exact isSome_iff_exists.mpr ⟨ch, hch⟩

theorem Inv.set (h : Inv s) (hch : s.mem a = some ch)
    (hlinks : ch'.next = ch.next ∧ ch'.prev = ch.prev)
    (hopen : ∃ side, (ch'.ep side).isOpen = true)
    (hsent : ∀ key, key.1 ≠ a → sent' key = s.sent key)
    (hdelivered : ∀ key, key.1 ≠ a → delivered' key = s.delivered key)
    (hstream : ∀ side, Stream (sent' (a, side)) (delivered' (a, side)) (ch'.ep side)) :
    Inv { s.set a ch' with sent := sent', delivered := delivered' } := by
  obtain ⟨xs, hlinked, hlast, hnodup, hmem⟩ := h.listed
  have hsome : ∀ b, ((s.set a ch').mem b).isSome ↔ (s.mem b).isSome := by
    intro b
    by_cases hb : b = a
    · rw [hb, set_self, hch]
      simp
    · rw [set_of_ne hb]
  have hnext : ∀ b, nextOf { s.set a ch' with sent := sent', delivered := delivered' } b =
      nextOf s b := by
    intro b
    change ((s.set a ch').mem b).bind Channel.next = (s.mem b).bind Channel.next
    by_cases hb : b = a
    · rw [hb, set_self, hch]
      exact hlinks.1
    · rw [set_of_ne hb]
  -- what holds of every other channel holds of all
  have hall : ∀ {p : ℕ → Channel → Prop}, p a ch' → (∀ b c, b ≠ a → s.mem b = some c → p b c) →
      ∀ b c, (s.set a ch').mem b = some c → p b c := by
    intro p hp hrest b c hc
    by_cases hb : b = a
    · subst hb
      cases set_self.symm.trans hc
      exact hp
    · exact hrest b c hb (by rwa [set_of_ne hb] at hc)
  constructor
  case listed =>
    exact ⟨xs, hlinked.congr fun b _ => hnext b, hlast, hnodup,
      fun b => (hmem b).trans (hsome b).symm⟩
  case unseen => exact fun b hb => (hsome b).mpr (h.unseen b hb)
  case prev => exact hall (hlinks.2.trans (h.prev a ch hch)) fun b c _ => h.prev b c
  case anyOpen => exact hall hopen fun b c _ => h.anyOpen b c
  case streams =>
    intro b c side hc
    refine hall (p := fun b c => Stream (sent' (b, side)) (delivered' (b, side)) (c.ep side))
      (hstream side) (fun b c hb hc => ?_) b c hc
    rw [hsent _ hb, hdelivered _ hb]
    exact h.streams b c side hc
  case delivers =>
    intro key i length bytes hi
    by_cases hkey : key.1 = a
    · obtain ⟨b, side⟩ := key
      subst hkey
      exact (hstream side).delivers i length bytes hi
    · change (delivered' key)[i]? = _ at hi
      change ∃ pkt, (sent' key)[i]? = _ ∧ _
      rw [hdelivered key hkey] at hi
      rw [hsent key hkey]
      exact h.delivers key i length bytes hi

theorem inv_newServer : Inv newServer := by
  constructor
  case listed => exact ⟨[], rfl, rfl, nodup_nil, fun a => by simp [newServer]⟩
  case unseen => intro a ha; cases ha
  case prev => intro a ch hch; cases hch
  case anyOpen => intro a ch hch; cases hch
  case streams => intro a ch side hch; cases hch
  case delivers => intro key i length bytes hi; simp [newServer] at hi

variable {t : System}

theorem read_cases (h : Inv s) (hopen : Open s a side) (length : ℕ) (wait : Wait) :
    ∃ ch, s.mem a = some ch ∧ (ch.ep side).isOpen = true ∧
      ((step l s (.read a side length wait) = some s ∧
          (wait = .ready → (ch.ep side.other).out = [])) ∨
        (step l s (.read a side length wait) = some (s.set a (ch.pop side)) ∧
          (ch.ep side.other).out = []) ∨
        ∃ pkt rest, wait = .ready ∧ (ch.ep side.other).isOpen = true ∧
          (ch.ep side.other).out = pkt :: rest ∧
          step l s (.read a side length wait) = some { s.set a (ch.pop side) with
            delivered := update s.delivered (a, side.other)
              (s.delivered (a, side.other) ++ [(length, pkt.take length)]) }) := by
  obtain ⟨ch, hch, hlocal⟩ := hopen
  refine ⟨ch, hch, hlocal, ?_⟩
  by_cases hready : wait = .ready
  · by_cases hremote : (ch.ep side.other).isOpen = true
    · cases hout : (ch.ep side.other).out with
      | nil =>
        refine .inr (.inl ⟨?_, rfl⟩)
        simp [step, ipcPipeClientRead, hch, hlocal, hready, hremote, hout]
      | cons pkt rest =>
        refine .inr (.inr ⟨pkt, rest, hready, hremote, rfl, ?_⟩)
        simp [step, ipcPipeClientRead, hch, hlocal, hready, hremote, hout]
    · rw [Bool.not_eq_true] at hremote
      refine .inl ⟨?_, fun _ => (h.streams a ch side.other hch).closed hremote⟩
      simp [step, ipcPipeClientRead, hch, hremote]
  · refine .inl ⟨?_, fun hwait => absurd hwait hready⟩
    simp [step, ipcPipeClientRead, hch, hready]

theorem inv_read (h : Inv s) (hopen : Open s a side) (length : ℕ) (wait : Wait) :
    ∃ t, step l s (.read a side length wait) = some t ∧ Inv t := by
  obtain ⟨ch, hch, hlocal, hcases⟩ := read_cases (l := l) h hopen length wait
  have hanyOpen : ∃ side', ((ch.pop side).ep side').isOpen = true := ⟨side, by simpa using hlocal⟩
  have hmine : Stream (s.sent (a, side)) (s.delivered (a, side)) ((ch.pop side).ep side) := by
    rw [pop_ep]
    exact (h.streams a ch side hch).same rfl rfl
  have htheirs := h.streams a ch side.other hch
  rcases hcases with ⟨heq, -⟩ | ⟨heq, hout⟩ | ⟨pkt, rest, -, hremote, hout, heq⟩
  · exact ⟨s, heq, h⟩
  · refine ⟨_, heq, h.set hch pop_links hanyOpen (fun _ _ => rfl) (fun _ _ => rfl) fun side' => ?_⟩
    rcases side_cases side side' with rfl | rfl
    · exact hmine
    · rw [pop_other]
      exact htheirs.same (by simp [hout]) rfl
  refine ⟨_, heq, h.set hch pop_links hanyOpen (fun _ _ => rfl) (fun key hkey => ?_)
    fun side' => ?_⟩
  · exact update_of_ne (fun heq => hkey (by rw [heq])) _ _
  · rcases side_cases side side' with rfl | rfl
    · rw [update_of_ne (key_ne a _)]
      exact hmine
    · rw [update_self, pop_other]
      apply htheirs.pop hout _ hremote
      · exact hremote
      · simp [hout]

theorem write_cases (hopen : Open s a side) (src : Packet) (wait : Wait) :
    ∃ ch, s.mem a = some ch ∧ (ch.ep side).isOpen = true ∧
      ((step l s (.write a side src wait) = some s ∧
          ¬ (wait = .ready ∧ src.length ≤ l.maxBlockSize)) ∨
        (wait = .ready ∧ src.length ≤ l.maxBlockSize ∧
          step l s (.write a side src wait) = some { s.set a (ch.push l side src) with
            sent := update s.sent (a, side) (s.sent (a, side) ++ [src]) })) := by
  obtain ⟨ch, hch, hlocal⟩ := hopen
  refine ⟨ch, hch, hlocal, ?_⟩
  by_cases hlong : src.length > l.maxBlockSize
  · refine .inl ⟨?_, fun hall => absurd hall.2 (not_le_of_gt hlong)⟩
    simp [step, ipcPipeClientWrite, hch, hlocal, hlong]
  · by_cases hready : wait = .ready
    · refine .inr ⟨hready, Nat.le_of_not_lt hlong, ?_⟩
      simp [step, ipcPipeClientWrite, hch, hlocal, hlong, hready]
    · refine .inl ⟨?_, fun hall => hready hall.1⟩
      simp [step, ipcPipeClientWrite, hch, hlong, hready]

theorem inv_write (h : Inv s) (hopen : Open s a side) (src : Packet) (wait : Wait) :
    ∃ t, step l s (.write a side src wait) = some t ∧ Inv t := by
  obtain ⟨ch, hch, hlocal, hcases⟩ := write_cases (l := l) hopen src wait
  rcases hcases with ⟨heq, -⟩ | ⟨-, -, heq⟩
  · exact ⟨s, heq, h⟩
  refine ⟨_, heq, h.set hch push_links ⟨side, by simpa using hlocal⟩ (fun key hkey => ?_)
    (fun _ _ => rfl) fun side' => ?_⟩
  · exact update_of_ne (fun heq => hkey (by rw [heq])) _ _
  · rcases side_cases side side' with rfl | rfl
    · rw [update_self, push_ep]
      exact (h.streams a ch side' hch).push rfl hlocal hlocal
    · rw [update_of_ne (key_ne a side).symm, push_other]
      exact (h.streams a ch side.other hch).same rfl rfl

theorem inv_accept (h : Inv s) : ∃ t, step l s .accept = some t ∧ t.mem = s.mem ∧ Inv t := by
  cases hunseen : s.firstUnseenClient with
  | none => exact ⟨s, by simp [step, ipcPipeServerFindDir, hunseen], rfl, h⟩
  | some conn =>
    obtain ⟨ch, hch⟩ := isSome_iff_exists.mp (h.unseen conn hunseen)
    obtain ⟨xs, hlinked, hlast, hnodup, hmem⟩ := h.listed
    refine ⟨{ s with firstUnseenClient := ch.next },
      by simp [step, ipcPipeServerFindDir, hunseen, hch], rfl, ?_⟩
    refine ⟨⟨xs, hlinked, hlast, hnodup, hmem⟩, fun b hb => ?_, h.prev, h.anyOpen, h.streams,
      h.delivers⟩
    -- the link leads to a member of the list
    have hconn : conn ∈ xs := (hmem conn).mpr (h.unseen conn hunseen)
    have hnext : nextOf s conn = some b := by rw [nextOf, hch]; exact hb
    obtain ⟨before, after, hxs⟩ := hlinked.pred hconn hnext
    exact (hmem b).mp (by simp [hxs])

theorem inv_close_one (h : Inv s) (hopen : Open s a side) (hother : Open s a side.other) :
    ∃ ch, s.mem a = some ch ∧ step l s (.close a side) = some (s.set a (ch.close side)) ∧
      Inv (s.set a (ch.close side)) := by
  obtain ⟨ch, hch, hlocal⟩ := hopen
  obtain ⟨ch', hch', hremote⟩ := hother
  cases hch.symm.trans hch'
  refine ⟨ch, hch, by simp [step, ipcPipeClientClose, hch, hlocal, hremote], ?_⟩
  refine h.set hch close_links ⟨side.other, by simpa using hremote⟩ (fun _ _ => rfl)
    (fun _ _ => rfl) fun side' => ?_
  rcases side_cases side side' with rfl | rfl
  · rw [close_ep]
    exact (h.streams a ch side' hch).close rfl rfl
  · rw [close_other]
    exact (h.streams a ch side.other hch).same rfl rfl

def Channel.unlinked (ch : Channel) : Channel := { ch with next := none }

variable {c : Channel} {b : ℕ} {op : Op}

theorem ep_of_unlinked {c' : Channel} (h : c.unlinked = c'.unlinked) (side : Side) :
    c.ep side = c'.ep side := by
  have hep : c.unlinked.ep side = c'.unlinked.ep side := by rw [h]
  cases side <;> exact hep

structure Connected (s t : System) (a : ℕ) : Prop where
  new : t.mem a = some newChannel
  old : ∀ b, b ≠ a → (t.mem b).map Channel.unlinked = (s.mem b).map Channel.unlinked
  unseen : t.firstUnseenClient = s.firstUnseenClient.or (some a)
  sent : ∀ key, t.sent key = if key.1 = a then [] else s.sent key
  delivered : ∀ key, t.delivered key = if key.1 = a then [] else s.delivered key

theorem Connected.cases (hc : Connected s t a) (hcb : t.mem b = some c) : (b = a ∧ c = newChannel) ∨
      (b ≠ a ∧ ∃ c', s.mem b = some c' ∧ c.prev = c'.prev ∧ ∀ side, c.ep side = c'.ep side) := by
  by_cases hb : b = a
  · subst hb
    exact .inl ⟨rfl, (some.inj (hc.new.symm.trans hcb)).symm⟩
  · have hold := hc.old b hb
    rw [hcb] at hold
    obtain ⟨c', hc', heq⟩ := map_eq_some_iff.mp hold.symm
    have hprev : c'.unlinked.prev = c.unlinked.prev := by rw [heq]
    exact .inr ⟨hb, c', hc', hprev.symm, ep_of_unlinked heq.symm⟩

theorem Connected.inv (hc : Connected s t a) (h : Inv s) {xs : List ℕ}
    (hlinked : Linked (nextOf t) t.firstClient (xs ++ [a])) (hlast : t.lastClient = some a)
    (hnodup : xs.Nodup) (ha : a ∉ xs) (hmem : ∀ b, b ∈ xs ↔ (s.mem b).isSome) : Inv t := by
  have hsome : ∀ b, b ≠ a → (t.mem b).isSome = (s.mem b).isSome := by
    intro b hb
    have hold := congrArg isSome (hc.old b hb)
    rwa [isSome_map, isSome_map] at hold
  have hself : (t.mem a).isSome := by rw [hc.new]; rfl
  constructor
  case listed =>
    refine ⟨xs ++ [a], hlinked, by simp [hlast], ?_, fun b => ?_⟩
    · exact (perm_append_singleton a xs).nodup_iff.mpr (nodup_cons.mpr ⟨ha, hnodup⟩)
    · by_cases hb : b = a
      · simp [hb, hself]
      · rw [hsome b hb, ← hmem b]
        simp [hb]
  case unseen =>
    intro b hb
    by_cases hba : b = a
    · rw [hba]
      exact hself
    · rw [hsome b hba]
      rcases or_eq_some_iff.mp (hc.unseen.symm.trans hb) with hold | ⟨-, hnew⟩
      · exact h.unseen b hold
      · exact absurd (some.inj hnew).symm hba
  case prev =>
    intro b c hcb
    rcases hc.cases hcb with ⟨-, rfl⟩ | ⟨-, c', hc', hprev, -⟩
    · rfl
    · rw [hprev]
      exact h.prev b c' hc'
  case anyOpen =>
    intro b c hcb
    rcases hc.cases hcb with ⟨-, rfl⟩ | ⟨-, c', hc', -, hep⟩
    · exact ⟨.server, rfl⟩
    · obtain ⟨side, hopen⟩ := h.anyOpen b c' hc'
      exact ⟨side, by rw [hep]; exact hopen⟩
  case streams =>
    intro b c side hcb
    rw [hc.sent, hc.delivered]
    rcases hc.cases hcb with ⟨hb, rfl⟩ | ⟨hb, c', hc', -, hep⟩
    · rw [if_pos hb, if_pos hb]
      cases side <;> exact ⟨by simp, fun _ => rfl, fun _ => rfl⟩
    · rw [if_neg hb, if_neg hb, hep]
      exact h.streams b c' side hc'
  case delivers =>
    intro key i length bytes hi
    rw [hc.delivered] at hi
    rw [hc.sent]
    by_cases hkey : key.1 = a
    · simp [hkey] at hi
    · rw [if_neg hkey] at hi ⊢
      exact h.delivers key i length bytes hi

theorem inv_connect (h : Inv s) (hfree : s.mem a = none) :
    ∃ t, step l s (.connect a) = some t ∧ Inv t ∧ Connected s t a := by
  obtain ⟨xs, hlinked, hlast, hnodup, hmem⟩ := h.listed
  have ha : a ∉ xs := fun ha => by simpa [hfree] using (hmem a).mp ha
  rcases eq_nil_or_concat xs with rfl | ⟨ys, last, rfl⟩
  · have hnone : s.lastClient = none := hlast
    have hc : Connected s { s.set a newChannel with
        firstClient := some a
        lastClient := some a
        firstUnseenClient := s.firstUnseenClient.or (some a)
        sent := fun key => if key.1 = a then [] else s.sent key
        delivered := fun key => if key.1 = a then [] else s.delivered key } a :=
      ⟨set_self, fun b hb => congrArg _ (set_of_ne hb), rfl, fun _ => rfl, fun _ => rfl⟩
    refine ⟨_, ?_, hc.inv h ?_ rfl hnodup ha hmem, hc⟩
    · simp [step, ipcPipeRootFindDir, System.set, hnone]
    · exact ⟨rfl, by simp [nextOf, System.set, newChannel, Linked]⟩
  rw [concat_eq_append] at hlinked hlast hnodup hmem ha
  have hlast' : s.lastClient = some last := by simpa using hlast
  have hlast_mem : last ∈ ys ++ [last] := by simp
  have hne : last ≠ a := fun heq => ha (heq ▸ hlast_mem)
  obtain ⟨ch, hch⟩ := isSome_iff_exists.mp ((hmem last).mp hlast_mem)
  have hc : Connected s { (s.set a newChannel).set last { ch with next := some a } with
      lastClient := some a
      firstUnseenClient := s.firstUnseenClient.or (some a)
      sent := fun key => if key.1 = a then [] else s.sent key
      delivered := fun key => if key.1 = a then [] else s.delivered key } a := by
    constructor
    case new => exact (set_of_ne hne.symm).trans set_self
    case old =>
      intro b hb
      by_cases hbl : b = last
      · subst hbl
        simp [System.set, hch, Channel.unlinked]
      · simp [System.set, hbl, hb]
    case unseen => rfl
    case sent => exact fun _ => rfl
    case delivered => exact fun _ => rfl
  refine ⟨_, ?_, hc.inv h ?_ rfl hnodup ha hmem, hc⟩
  · simp [step, ipcPipeRootFindDir, System.set, hlast', hne, hch]
  · rw [append_assoc]
    apply hlinked.splice
    · simp [nextOf, System.set]
    · have hend : nextOf s last = none := hlinked.next_eq
      rw [hend]
      simp [nextOf, System.set, hne.symm, newChannel]
    · intro b hb
      rw [append_nil] at hb
      have hba : b ≠ a := fun heq => ha (heq ▸ mem_append_left _ hb)
      have hbl : b ≠ last := by
        rintro rfl
        exact (nodup_cons.mp (nodup_middle.mp hnodup)).1 (by simpa using hb)
      simp [nextOf, System.set, hba, hbl]

/-- The system without a channel that has been freed: all that was before it is left behind. -/
def freed (s : System) (a : ℕ) : System :=
  { s with
    firstClient := nextOf s a
    lastClient := if nextOf s a = none then none else s.lastClient
    firstUnseenClient := if s.firstUnseenClient = some a then nextOf s a else s.firstUnseenClient
    mem := update s.mem a none }

theorem close_freed (h : Inv s) (hopen : Open s a side) (hother : ¬ Open s a side.other) :
    step l s (.close a side) = some (freed s a) := by
  obtain ⟨xs, hlinked, -, hnodup, hmem⟩ := h.listed
  obtain ⟨ch, hch, hlocal⟩ := hopen
  have hremote : (ch.ep side.other).isOpen = false := by
    rw [← Bool.not_eq_true]
    exact fun hopen => hother ⟨ch, hch, hopen⟩
  have hprev : (ch.close side).prev = none := close_links.2.trans (h.prev a ch hch)
  have hnext : nextOf s a = (ch.close side).next := by
    rw [nextOf, hch, close_links.1]
    rfl
  have hstep : step l s (.close a side) = unlink (s.set a (ch.close side)) a (ch.close side) := by
    simp [step, ipcPipeClientClose, hch, hlocal, hremote]
  rw [hstep, unlink, linkForward, hprev, freed, hnext]
  generalize ch.close side = closed at hprev hnext ⊢
  cases hlink : closed.next with
  | none => simp [linkBackward, hlink, System.set, hprev]
  | some n =>
    -- the channel behind it is there, and its `Prev` is null already
    rw [hlink] at hnext
    have ha : a ∈ xs := (hmem a).mpr (by rw [hch]; rfl)
    obtain ⟨before, after, hxs⟩ := hlinked.pred ha hnext
    have hn : n ∈ xs := by simp [hxs]
    have hne : n ≠ a := by
      rintro rfl
      rw [hxs] at hnodup
      simp [nodup_append] at hnodup
    obtain ⟨c, hc⟩ := isSome_iff_exists.mp ((hmem n).mp hn)
    have hsame : ({ c with prev := none } : Channel) = c := by rw [← h.prev n c hc]
    have hupdate : update (update (update s.mem a
        (some closed)) n (some c)) a none = update s.mem a none := by
      rw [update_comm hne, update_idem, update_comm hne.symm, ← hc, update_eq_self]
    simp [linkBackward, hlink, System.set, hne, hc, hprev, hsame, hupdate]

theorem nextOf_freed (hb : b ≠ a) : nextOf (freed s a) b = nextOf s b := by
  simp [nextOf, freed, hb]

theorem inv_freed_first (h : Inv s) (hfirst : s.firstClient = some a) : Inv (freed s a) := by
  obtain ⟨xs, hlinked, hlast, hnodup, hmem⟩ := h.listed
  cases xs with
  | nil =>
    have hnone : s.firstClient = none := hlinked
    cases hfirst.symm.trans hnone
  | cons x ys =>
    obtain ⟨hx, hrest⟩ := hlinked
    obtain rfl : a = x := some.inj (hfirst.symm.trans hx)
    obtain ⟨ha, hys⟩ := nodup_cons.mp hnodup
    have hold : ∀ b c, (freed s a).mem b = some c → b ≠ a ∧ s.mem b = some c := by
      intro b c hc
      by_cases hb : b = a
      · simp [freed, hb] at hc
      · exact ⟨hb, by simpa [freed, hb] using hc⟩
    have hsome : ∀ b, b ∈ ys ↔ ((freed s a).mem b).isSome := by
      intro b
      by_cases hb : b = a
      · simp [hb, ha, freed]
      · have hmemb := hmem b
        simpa [freed, hb] using hmemb
    have hnext : ∀ b, nextOf s a = some b → b ∈ ys := by
      intro b hb
      rw [hrest.head_eq] at hb
      exact mem_of_mem_head? hb
    constructor
    case listed =>
      refine ⟨ys, ?_, ?_, hys, hsome⟩
      · apply hrest.congr
        intro b hb
        exact nextOf_freed fun heq => ha (heq ▸ hb)
      · rw [freed, hrest.head_eq]
        cases ys with
        | nil => rfl
        | cons y ys =>
          simp only [head?_cons, reduceCtorEq, ↓reduceIte]
          rw [hlast, getLast?_cons_cons]
    case unseen =>
      intro b hb
      simp only [freed] at hb
      split_ifs at hb with hunseen
      · exact (hsome b).mp (hnext b hb)
      · have hba : b ≠ a := fun heq => hunseen (heq ▸ hb)
        have hs := h.unseen b hb
        simpa [freed, hba] using hs
    case prev => exact fun b c hc => h.prev b c (hold b c hc).2
    case anyOpen => exact fun b c hc => h.anyOpen b c (hold b c hc).2
    case streams => exact fun b c side hc => h.streams b c side (hold b c hc).2
    case delivers => exact h.delivers

theorem not_listed_freed (h : Inv s) (hsome : (s.mem a).isSome) (hfirst : s.firstClient ≠ some a) :
    ¬ Listed (freed s a) := by
  obtain ⟨xs, hlinked, -, hnodup, hmem⟩ := h.listed
  obtain ⟨us, vs, rfl⟩ := append_of_mem ((hmem a).mpr hsome)
  cases us with
  | nil => exact absurd hlinked.1 hfirst
  | cons u us =>
    have hparts := nodup_cons.mp (nodup_middle.mp hnodup)
    have hvs : a ∉ vs := fun ha => hparts.1 (mem_append_right _ ha)
    have hu : u ≠ a := fun heq => hparts.1 (by simp [heq])
    have huvs : u ∉ vs := by
      have hall := (nodup_cons.mp hnodup).1
      exact fun hmemu => hall (by simp [hmemu])
    rintro ⟨ys, hys, -, -, hexact⟩
    have hlinked' : Linked (nextOf (freed s a)) (freed s a).firstClient vs :=
      hlinked.rest.congr fun b hb => nextOf_freed fun heq => hvs (heq ▸ hb)
    obtain rfl := hys.unique hlinked'
    -- the first channel is still there, with an open endpoint
    have husome : (s.mem u).isSome := (hmem u).mp (by simp)
    obtain ⟨c, hc⟩ := isSome_iff_exists.mp husome
    obtain ⟨side, hopen⟩ := h.anyOpen u c hc
    exact huvs ((hexact u).mpr ⟨side, c, by simpa [freed, hu] using hc, hopen⟩)

theorem inv_step (h : Inv s) (hallowed : allowed s op) (hguard : listGuard s op) :
    ∃ t, step l s op = some t ∧ Inv t := by
  cases op with
  | connect a =>
    obtain ⟨t, hstep, hinv, -⟩ := inv_connect (l := l) h hallowed
    exact ⟨t, hstep, hinv⟩
  | accept =>
    obtain ⟨t, hstep, -, hinv⟩ := inv_accept (l := l) h
    exact ⟨t, hstep, hinv⟩
  | read a side length wait => exact inv_read h hallowed length wait
  | write a side src wait => exact inv_write h hallowed src wait
  | close a side =>
    by_cases hother : Open s a side.other
    · obtain ⟨ch, -, hstep, hinv⟩ := inv_close_one (l := l) h hallowed hother
      exact ⟨_, hstep, hinv⟩
    · refine ⟨_, close_freed h hallowed hother, inv_freed_first h ?_⟩
      exact hguard.resolve_left hother

theorem listGuard_of_listed (h : Inv s) (hallowed : allowed s op)
    (hstep : step l s op = some t) (hlisted : Listed t) : listGuard s op := by
  cases op with
  | close a side =>
    by_contra hguard
    obtain ⟨hother, hfirst⟩ := not_or.mp hguard
    cases (close_freed h hallowed hother).symm.trans hstep
    obtain ⟨ch, hch, -⟩ := id hallowed
    exact not_listed_freed h (by rw [hch]; rfl) hfirst hlisted
  | _ => trivial

variable {e' : Endpoint}

structure Accounted (l : Limits) (e : Endpoint) : Prop where
  counted : e.byteCount = queued e
  flowing : e.full = true → l.queueByteLimit ≤ queued e

structure Flow (l : Limits) (s : System) : Prop where
  inv : Inv s
  accounted : ∀ a ch side, s.mem a = some ch → Accounted l (ch.ep side)

theorem flow_newServer : Flow l newServer :=
  ⟨inv_newServer, fun _ _ _ hch => by cases hch⟩

theorem Accounted.same (h : Accounted l e) (hcount : e'.byteCount = e.byteCount)
    (hout : e'.out = e.out) (hfull : e'.full = true → e.full = true) : Accounted l e' := by
  have hqueued : queued e' = queued e := by rw [queued, queued, hout]
  constructor
  case counted => rw [hcount, hqueued, h.counted]
  case flowing =>
    rw [hqueued]
    exact fun h' => h.flowing (hfull h')

variable {pkt : Packet} {rest : List Packet}

theorem queued_cons (hout : e.out = pkt :: rest) :
    queued e = pkt.length + (rest.map length).sum := by
  rw [queued, hout, map_cons, sum_cons]

theorem accounted_pop_iff (h : Accounted l (ch.ep side.other))
    (hout : (ch.ep side.other).out = pkt :: rest) :
    Accounted l ((ch.pop side).ep side.other) ↔ pkt.length = 0 := by
  have hcount := h.counted
  rw [queued_cons hout] at hcount
  have hleft : queued ((ch.pop side).ep side.other) = (rest.map length).sum := by
    rw [pop_other, queued, hout, tail_cons]
  have hsame : ((ch.pop side).ep side.other).byteCount = (ch.ep side.other).byteCount := by
    rw [pop_other]
  constructor
  · intro h'
    have hcount' := h'.counted
    omega
  · intro hzero
    constructor
    case counted => omega
    case flowing => simp [pop_other]

theorem accounted_push_iff (h : Accounted l (ch.ep side)) :
    Accounted l ((ch.push l side src).ep side) ↔
      queued (ch.ep side) + src.length < 2 ^ l.width := by
  have hqueued : queued ((ch.push l side src).ep side) = queued (ch.ep side) + src.length := by
    simp [queued]
  constructor
  · intro h'
    have hcount := h'.counted
    rw [hqueued, push_ep, h.counted] at hcount
    rw [← hcount]
    exact Nat.mod_lt _ (Nat.two_pow_pos _)
  · intro hlt
    have hmod := mod_eq_of_lt hlt
    constructor
    case counted => rw [hqueued, push_ep, h.counted, hmod]
    case flowing =>
      rw [hqueued, push_ep, h.counted, hmod]
      intro hfull
      split_ifs at hfull with hlimit
      · exact hlimit
      · exact le_add_right_of_le (h.flowing hfull)

theorem accounted_close_iff (h : Accounted l (ch.ep side)) :
    Accounted l ((ch.close side).ep side) ↔ queued (ch.ep side) = 0 := by
  have hleft : queued ((ch.close side).ep side) = 0 := by simp [queued]
  rw [← h.counted]
  constructor
  · intro h'
    have hcount := h'.counted
    rwa [hleft, close_ep] at hcount
  · intro hzero
    constructor
    case counted => rw [hleft, close_ep, hzero]
    case flowing =>
      rw [hleft, close_ep]
      intro hfull
      have := h.flowing hfull
      rwa [← h.counted, hzero] at this

theorem accounted_other (h : ∀ side, Accounted l (ch.ep side)) (side : Side) (src : Packet) :
    Accounted l ((ch.pop side).ep side) ∧ Accounted l ((ch.push l side src).ep side.other) ∧
      Accounted l ((ch.close side).ep side.other) := by
  rw [pop_ep, push_other, close_other]
  exact ⟨(h side).same rfl rfl id, (h side.other).same rfl rfl id, (h side.other).same rfl rfl id⟩

theorem accounted_set (h : Flow l s) (hmine : Accounted l (ch'.ep side))
    (htheirs : Accounted l (ch'.ep side.other)) :
    ∀ b c side, (s.set a ch').mem b = some c → Accounted l (c.ep side) := by
  intro b c side' hc
  by_cases hb : b = a
  · rw [hb, set_self] at hc
    cases hc
    rcases side_cases side side' with rfl | rfl
    · exact hmine
    · exact htheirs
  · rw [set_of_ne hb] at hc
    exact h.accounted b c side' hc

theorem flow_step (h : Flow l s) (hallowed : allowed s op)
    (hguard : listGuard s op ∧ byteGuard l s op) : ∃ t, step l s op = some t ∧ Flow l t := by
  obtain ⟨t, hstep, hinv⟩ := inv_step (l := l) h.inv hallowed hguard.1
  refine ⟨t, hstep, hinv, ?_⟩
  have hbytes := hguard.2
  cases op with
  | connect a =>
    obtain ⟨u, hu, -, hconn⟩ := inv_connect (l := l) h.inv hallowed
    cases hu.symm.trans hstep
    intro b c side hc
    rcases hconn.cases hc with ⟨-, rfl⟩ | ⟨-, c', hc', -, hep⟩
    · cases side <;> exact ⟨rfl, fun hfull => by cases hfull⟩
    · rw [hep]
      exact h.accounted b c' side hc'
  | accept =>
    obtain ⟨u, hu, hsame, -⟩ := inv_accept (l := l) h.inv
    cases hu.symm.trans hstep
    rw [hsame]
    exact h.accounted
  | read a side length wait =>
    obtain ⟨ch, hch, -, hcases⟩ := read_cases (l := l) h.inv hallowed length wait
    have hacc := fun side => h.accounted a ch side hch
    have hmine := (accounted_other hacc side []).1
    rcases hcases with ⟨heq, -⟩ | ⟨heq, hout⟩ | ⟨pkt, rest, hwait, -, hout, heq⟩
    · cases heq.symm.trans hstep
      exact h.accounted
    · cases heq.symm.trans hstep
      apply accounted_set h hmine
      rw [pop_other]
      exact (hacc side.other).same rfl (by simp [hout]) (fun hfull => by cases hfull)
    · cases heq.symm.trans hstep
      apply accounted_set h hmine
      exact (accounted_pop_iff (hacc side.other) hout).mpr
        (hbytes ch hch hwait pkt (by simp [hout]))
  | write a side src wait =>
    obtain ⟨ch, hch, -, hcases⟩ := write_cases (l := l) hallowed src wait
    have hacc := fun side => h.accounted a ch side hch
    rcases hcases with ⟨heq, -⟩ | ⟨hwait, hlen, heq⟩
    · cases heq.symm.trans hstep
      exact h.accounted
    · cases heq.symm.trans hstep
      refine accounted_set h ?_ (accounted_other hacc side src).2.1
      exact (accounted_push_iff (hacc side)).mpr (hbytes ch hch hwait hlen)
  | close a side =>
    by_cases hother : Open s a side.other
    · obtain ⟨ch, hch, heq, -⟩ := inv_close_one (l := l) h.inv hallowed hother
      cases heq.symm.trans hstep
      have hacc := fun side => h.accounted a ch side hch
      refine accounted_set h ?_ (accounted_other hacc side []).2.2
      exact (accounted_close_iff (hacc side)).mpr (hbytes ch hch hother)
    · cases (close_freed h.inv hallowed hother).symm.trans hstep
      intro b c side' hc
      by_cases hb : b = a
      · simp [freed, hb] at hc
      · exact h.accounted b c side' (by simpa [freed, hb] using hc)

theorem byteGuard_of_accounted (h : Flow l s) (hallowed : allowed s op)
    (hstep : step l s op = some t)
    (hacc : ∀ a ch side, t.mem a = some ch → Accounted l (ch.ep side)) : byteGuard l s op := by
  have hset : ∀ {a ch'} {u : System}, step l s op = some u → u.mem = (s.set a ch').mem →
      ∀ side, Accounted l (ch'.ep side) := by
    intro a ch' u hu hmem side
    obtain rfl := some.inj (hu.symm.trans hstep)
    exact hacc a ch' side (by rw [hmem, set_self])
  cases op with
  | connect a => trivial
  | accept => trivial
  | read a side length wait =>
    intro ch' hch' hready pkt hpkt
    obtain ⟨ch, hch, -, hcases⟩ := read_cases (l := l) h.inv hallowed length wait
    obtain rfl := some.inj (hch.symm.trans hch')
    rcases hcases with ⟨-, hout⟩ | ⟨-, hout⟩ | ⟨pkt', rest, -, -, hout, heq⟩
    · simp [hout hready] at hpkt
    · simp [hout] at hpkt
    · obtain rfl : pkt' = pkt := by simpa [hout] using hpkt
      exact (accounted_pop_iff (h.accounted a ch side.other hch) hout).mp (hset heq rfl side.other)
  | write a side src wait =>
    intro ch' hch' hready hlen
    obtain ⟨ch, hch, -, hcases⟩ := write_cases (l := l) hallowed src wait
    obtain rfl := some.inj (hch.symm.trans hch')
    rcases hcases with ⟨-, hnot⟩ | ⟨-, -, heq⟩
    · exact absurd ⟨hready, hlen⟩ hnot
    · exact (accounted_push_iff (h.accounted a ch side hch)).mp (hset heq rfl side)
  | close a side =>
    intro ch' hch' hother
    obtain ⟨ch, hch, heq, -⟩ := inv_close_one (l := l) h.inv hallowed hother
    obtain rfl := some.inj (hch.symm.trans hch')
    exact (accounted_close_iff (h.accounted a ch side hch)).mp (hset heq rfl side)

variable {ops : List Op}

/-- Packets and channels are right exactly while a channel that is freed is the first, and the
counts exactly while no byte leaves a queue. -/
theorem channels_iff (hallowed : Along (step l) allowed newServer ops) :
    (Along (step l) listGuard newServer ops ↔ ∀ os, os <+: ops →
      ∃ t, run (step l) newServer os = some t ∧ Delivers t ∧ Listed t) ∧
    (Along (step l) (fun s op => listGuard s op ∧ byteGuard l s op) newServer ops ↔
      ∀ os, os <+: ops → ∃ t, run (step l) newServer os = some t ∧ Delivers t ∧ Listed t ∧
        Counted t ∧ Flowing l t) := by
  constructor
  · refine along_iff_prefixes (fun s op h => inv_step h) ?_ ?_ inv_newServer hallowed
    · exact fun s h => ⟨h.delivers, h.listed_open⟩
    · exact fun s op t h hallowed hstep hgood => listGuard_of_listed h hallowed hstep hgood.2
  · refine along_iff_prefixes (fun s op h => flow_step h) ?_ ?_ flow_newServer hallowed
    · intro s h
      refine ⟨h.inv.delivers, h.inv.listed_open, ?_, ?_⟩
      · exact fun a ch side hch => (h.accounted a ch side hch).counted
      · exact fun a ch side hch => (h.accounted a ch side hch).flowing
    · rintro s op t h hallowed hstep ⟨-, hlisted, hcounted, hflowing⟩
      refine ⟨listGuard_of_listed h.inv hallowed hstep hlisted, ?_⟩
      apply byteGuard_of_accounted h hallowed hstep
      exact fun a ch side hch => ⟨hcounted a ch side hch, hflowing a ch side hch⟩

def defaults : Limits := ⟨0x1000, 0x8000, 32⟩

def inTurn : List Op :=
  [.connect 0, .accept, .write 0 .client [1, 2, 3] .ready, .read 0 .server 2 .ready, .connect 1,
    .accept, .close 0 .client, .close 0 .server]

theorem inTurn_allowed : Along (step defaults) allowed newServer inTurn := by decide

theorem inTurn_channels : Along (step defaults) allowed newServer inTurn ∧ ∀ os, os <+: inTurn →
      ∃ t, run (step defaults) newServer os = some t ∧ Delivers t ∧ Listed t :=
  ⟨inTurn_allowed, (channels_iff inTurn_allowed).1.mp (by decide)⟩

def secondLeaves : List Op := [.connect 0, .connect 1, .close 1 .client, .close 1 .server]

def onePacket : List Op :=
  [.connect 0, .write 0 .client [1, 2, 3] .ready, .read 0 .server 8 .ready]

def eighthBlock : List Op :=
  .connect 0 :: (List.replicate 7 [Op.write 0 .client (List.replicate 0x1000 0) .ready,
    Op.read 0 .server 0x1000 .ready]).flatten ++ [.write 0 .client (List.replicate 0x1000 0) .ready]

theorem eighthBlock_full : (run (step defaults) newServer eighthBlock).any (fun t =>
    (t.mem 0).any fun ch => (ch.ep .client).full && decide (queued (ch.ep .client) < 0x8000)) := by
  decide +kernel

/-- A channel with both ends open is off the list, an empty queue counts three bytes, and a node is
full with one block of eight. -/
theorem channel_lost_bytes_kept : (Along (step defaults) allowed newServer secondLeaves ∧
      ∃ t, run (step defaults) newServer secondLeaves = some t ∧ ¬ Listed t) ∧
    (Along (step defaults) allowed newServer onePacket ∧
      ∃ t, run (step defaults) newServer onePacket = some t ∧ ¬ Counted t) ∧
    (Along (step defaults) allowed newServer eighthBlock ∧
      ∃ t, run (step defaults) newServer eighthBlock = some t ∧ ¬ Flowing defaults t) := by
  refine ⟨⟨by decide, _, rfl, ?_⟩, ⟨by decide, _, rfl, ?_⟩, ⟨by decide +kernel, ?_⟩⟩
  · rintro ⟨xs, hlinked, -, -, hmem⟩
    have hnil : xs.head? = none := hlinked.head_eq.symm
    have hopen : (0 : ℕ) ∈ xs := (hmem 0).mpr ⟨.client, by decide⟩
    rw [head?_eq_none_iff.mp hnil] at hopen
    cases hopen
  · intro hcounted
    have hcount := hcounted 0 _ .client rfl
    revert hcount
    decide
  · obtain ⟨t, ht, hmem⟩ := (Option.any_eq_true ..).mp eighthBlock_full
    obtain ⟨ch, hch, hep⟩ := (Option.any_eq_true ..).mp hmem
    obtain ⟨hfull, hless⟩ := (Bool.and_eq_true ..).mp hep
    refine ⟨t, ht, fun hflowing => ?_⟩
    exact absurd (hflowing 0 ch .client hch hfull) (not_le_of_gt (of_decide_eq_true hless))

end DgramPipes
