import Mathlib.Data.List.Nodup
import Acess2.GuardedRuns
import Acess2.MachineWords
import Acess2.Strtoi

/-! The connections that a TCP listener accepts, and their names (`tcp.c`). A name is the number of
the connection in eight hexadecimal digits; it is read back by `atoi`, which takes the zeros before
it for the mark of an octal number. -/
namespace TcpNames

open GuardedRuns Libc List MachineWords Strtoi

variable {N : Type}

/-- `tTCPConnection`: its node, and `Node.ImplInt` -/
structure Conn (N : Type) where
  node : N
  implInt : ℕ
  deriving DecidableEq

/-- `tTCPListener`; `newConnections` are those from `NewConnections` on. -/
structure Listener (N : Type) where
  nextID : ℕ
  connections : List (Conn N)
  newConnections : List (Conn N)

/-- A connection opened by `TCP_GetPacket`; there are as many as an `int` can count. -/
def openConnection (srv : Listener N) (node : N) : Option (Listener N) :=
  if srv.nextID + 1 < 2 ^ 31 then
    some ⟨srv.nextID + 1, srv.connections ++ [⟨node, srv.nextID⟩],
      srv.newConnections ++ [⟨node, srv.nextID⟩]⟩
  else none

/-- `TCP_Server_ReadDir`: the name written, and the connection it is of -/
def serverReadDir (srv : Listener N) : Option (List UInt8 × Conn N × Listener N) :=
  match srv.newConnections with
  | [] => none
  | conn :: rest => some (itoa conn.implInt 16 8 48, conn, { srv with newConnections := rest })

/-- `atoi` limits the value as `strtol` does for a `long` of 32 bits. -/
def atoi (str : List UInt8) : ℤ := (strtol kernelCtype 32 str 0).1

/-- `TCP_Server_FindDir`, for a `Uint` of so many bits -/
def serverFindDir (signedChar : Bool) (uintBits : ℕ) (srv : Listener N) (name : List UInt8) :
    Option N × Listener N :=
  if name ≠ [] then
    let id := atoi name
    if strcmp signedChar (itoa (toWord 64 id) 16 8 48) name ≠ 0 then (none, srv)
    else ((srv.connections.find? (·.implInt = toWord uintBits id)).map Conn.node, srv)
  else
    match srv.newConnections with
    | [] => (none, srv)
    | conn :: rest => (some conn.node, { srv with newConnections := rest })

/-- Connections are accepted by either function, and freed by `TCP_int_FreeTCB`. -/
inductive Op (N : Type) where
  | opened (node : N)
  | accepted
  | freed (conn : Conn N)

def step [DecidableEq N] (srv : Listener N) : Op N → Option (Listener N)
  | .opened node => openConnection srv node
  | .accepted => some { srv with newConnections := srv.newConnections.tail }
  | .freed conn => some { srv with connections := srv.connections.erase conn }

def listener : Listener N := ⟨0, [], []⟩

def name (n : ℕ) : List UInt8 := itoa n 16 8 48

theorem small_names : ∀ n < 8, name n ≠ [] ∧ 0 ∉ name n ∧ atoi (name n) = n := by decide

variable [DecidableEq N] {srv t : Listener N} {op : Op N} {conn : Conn N}

structure Numbered (srv : Listener N) : Prop where
  distinct : (srv.connections.map Conn.implInt).Nodup
  below : ∀ conn ∈ srv.connections, conn.implInt < srv.nextID

theorem step_numbered (h : Numbered srv) (hstep : step srv op = some t) : Numbered t := by
  cases op with
  | opened node =>
    rw [step, openConnection] at hstep
    split_ifs at hstep
    cases hstep
    constructor
    · rw [map_append, nodup_append]
      refine ⟨h.distinct, nodup_singleton _, ?_⟩
      intro a ha b hb
      obtain ⟨conn, hconn, rfl⟩ := mem_map.mp ha
      rw [mem_singleton.mp hb]
      exact (h.below conn hconn).ne
    · intro conn hconn
      rcases mem_append.mp hconn with hconn | hconn
      · exact (h.below conn hconn).trans (Nat.lt_succ_self _)
      · rw [mem_singleton.mp hconn]
        exact Nat.lt_succ_self _
  | accepted =>
    cases hstep
    exact ⟨h.distinct, h.below⟩
  | freed conn =>
    cases hstep
    exact ⟨h.distinct.sublist (erase_sublist.map _), fun c hc => h.below c (mem_of_mem_erase hc)⟩

/-- The name of a connection with a number below eight opens it. -/
theorem opened_by_name {signedChar : Bool} {uintBits : ℕ} {ops ops' : List (Op N)}
    {s s' : Listener N} {str : List UInt8} (hbits : 32 ≤ uintBits)
    (hrun : run step listener ops = some s) (hread : serverReadDir s = some (str, conn, s'))
    (hrun' : run step s' ops' = some t) (hlisted : conn ∈ t.connections)
    (hsmall : conn.implInt < 8) :
    (serverFindDir signedChar uintBits t str).1 = some conn.node := by
  have hstart : Numbered (listener : Listener N) := ⟨nodup_nil, nofun⟩
  have hs := run_preserves (fun _ _ _ => step_numbered) hstart hrun
  obtain ⟨rfl, hs'⟩ : str = name conn.implInt ∧ Numbered s' := by
    rw [serverReadDir] at hread
    split at hread <;> cases hread
    exact ⟨rfl, hs.distinct, hs.below⟩
  have ht := run_preserves (fun _ _ _ => step_numbered) hs' hrun'
  obtain ⟨hne, hnul, hatoi⟩ := small_names conn.implInt hsmall
  have hpow : 2 ^ 32 ≤ 2 ^ uintBits := Nat.pow_le_pow_right (by omega) hbits
  rw [serverFindDir, if_pos hne]
  dsimp only
  rw [hatoi, toWord_of_lt (by omega), toWord_of_lt (by omega), ← name,
    if_neg (not_not.mpr ((strcmp_eq_zero_iff hnul hnul).mpr rfl))]
  obtain ⟨c, hc⟩ : ∃ c, t.connections.find? (·.implInt = conn.implInt) = some c :=
    Option.isSome_iff_exists.mp (find?_isSome.mpr ⟨conn, hlisted, by simp⟩)
  have hc' : c.implInt = conn.implInt := by simpa using find?_some hc
  rw [hc, inj_on_of_nodup_map ht.distinct (mem_of_find?_eq_some hc) hlisted hc']
  rfl

def sampleOps (n : ℕ) : List (Op ℕ) :=
  (List.range (n + 1)).map .opened ++ replicate n .accepted

def sample (n : ℕ) : Listener ℕ :=
  ⟨n + 1, (List.range (n + 1)).map fun i => ⟨i, i⟩, [⟨n, n⟩]⟩

theorem eighth_opened :
    (serverFindDir true 32 { sample 7 with newConnections := [] } (name 7)).1 = some 7 :=
  opened_by_name (N := ℕ) (by decide)
    (show run step listener (sampleOps 7) = some (sample 7) from rfl) rfl
    (show run step _ [] = _ from rfl) (by decide) (by decide)

/-- The name of the ninth connection is read as zero. -/
theorem ninth_not_opened : run step listener (sampleOps 8) = some (sample 8) ∧
      (serverReadDir (sample 8)).map (·.1) = some (name 8) ∧ atoi (name 8) = 0 ∧
      (serverFindDir true 32 { sample 8 with newConnections := [] } (name 8)).1 = none :=
  ⟨rfl, rfl, by decide, by decide⟩

end TcpNames
