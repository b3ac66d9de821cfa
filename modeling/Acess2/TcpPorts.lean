import Acess2.GuardedRuns
import Acess2.WordBitmaps

/-! The ports of outgoing TCP connections (`tcp.c`). They are searched from a cursor on, which is
wider than a port: it is set back when it leaves the range inside the search, but not when a call
starts there. -/
namespace TcpPorts

open GuardedRuns Nat WordBitmaps

def minDynPort : ℕ := 0xC000

def Dynamic (port : ℕ) : Prop := minDynPort ≤ port ∧ port < 0x10000

/-- `giTCP_NextOutPort` and `gaTCP_PortBitmap` -/
structure Ports where
  nextOutPort : ℕ
  bitmap : Bitmap 32

/-- `TCP_Initialise`, with what `rand` gave; that may be negative. -/
def initialise (rand : ℤ) : Ports := ⟨(minDynPort + rand.tmod 128).toNat, fun _ => 0⟩

/-- `giTCP_NextOutPort++`; an overflow of the `int` ends the run. -/
def increment (next : ℕ) : Option ℕ := if next + 1 < 2 ^ 31 then some (next + 1) else none

/-- The loop of `TCP_GetUnusedPort`, for so many rounds at most -/
def search (bitmap : Bitmap 32) : ℕ → ℕ → ℕ → Option (ℕ × ℕ)
  | 0, _, _ => none
  | rounds + 1, ret, next =>
    if bit bitmap ret then
      (increment next).bind fun next =>
        if next = 0x10000 then search bitmap rounds minDynPort minDynPort
        else search bitmap rounds ((ret + 1) % 2 ^ 16) next
    else some (ret, next)

def getUnusedPort (rounds : ℕ) (s : Ports) : Option (ℕ × Ports) :=
  (increment s.nextOutPort).bind fun next =>
    (search s.bitmap rounds (s.nextOutPort % 2 ^ 16) next).map fun (ret, next) =>
      (ret, ⟨next, setBit s.bitmap ret⟩)

def allocatePort (s : Ports) (port : Fin 0x10000) : Bool × Ports :=
  if bit s.bitmap port then (false, s) else (true, { s with bitmap := setBit s.bitmap port })

def deallocatePort (s : Ports) (port : Fin 0x10000) : Bool × Ports :=
  if bit s.bitmap port then (true, { s with bitmap := clearBit s.bitmap port }) else (false, s)

inductive Op where
  | getUnused (rounds : ℕ)
  | allocate (port : Fin 0x10000)
  | deallocate (port : Fin 0x10000)

def step (s : Ports) : Op → Option Ports
  | .getUnused rounds => (getUnusedPort rounds s).map Prod.snd
  | .allocate port => some (allocatePort s port).2
  | .deallocate port => some (deallocatePort s port).2

/-- The call starts before the last port, or there if that is free. -/
def CursorInside (s : Ports) : Prop :=
  s.nextOutPort < 0xFFFF ∨ s.nextOutPort = 0xFFFF ∧ bit s.bitmap 0xFFFF = false

variable {bitmap : Bitmap 32} {s t : Ports} {rounds ret next m n p : ℕ}

def Above (s : Ports) : Prop := minDynPort ≤ s.nextOutPort

theorem increment_le (h : increment n = some m) : n ≤ m := by
  rw [increment] at h
  split_ifs at h
  cases h
  exact le_succ n

theorem search_above {r : ℕ × ℕ} (hnext : minDynPort ≤ next)
    (h : search bitmap rounds ret next = some r) : minDynPort ≤ r.2 := by
  induction rounds generalizing ret next with
  | zero => cases h
  | succ rounds ih =>
    rw [search] at h
    split_ifs at h
    · obtain ⟨next', hinc, h⟩ := Option.bind_eq_some_iff.mp h
      split_ifs at h
      · exact ih le_rfl h
      · exact ih (hnext.trans (increment_le hinc)) h
    · cases h
      exact hnext

theorem step_above {op : Op} (h : Above s) (hstep : step s op = some t) : Above t := by
  cases op with
  | getUnused rounds =>
    obtain ⟨u, hget, rfl⟩ := Option.map_eq_some_iff.mp hstep
    obtain ⟨next, hinc, hget⟩ := Option.bind_eq_some_iff.mp hget
    obtain ⟨r, hsearch, rfl⟩ := Option.map_eq_some_iff.mp hget
    exact search_above (h.trans (increment_le hinc)) hsearch
  | allocate port =>
    cases hstep
    unfold allocatePort
    split_ifs <;> exact h
  | deallocate port =>
    cases hstep
    unfold deallocatePort
    split_ifs <;> exact h

def Ends (bitmap : Bitmap 32) (ret next : ℕ) : Prop :=
  ∃ rounds port next', search bitmap rounds ret next = some (port, next') ∧ Dynamic port ∧
    bit bitmap port = false

theorem ends_of (hret : Dynamic ret) (hnext : next ≤ 0xFFFF)
    (hback : next + 1 = 0x10000 → Ends bitmap minDynPort minDynPort)
    (hon : next + 1 ≠ 0x10000 → bit bitmap ret = true →
      Ends bitmap ((ret + 1) % 2 ^ 16) (next + 1)) : Ends bitmap ret next := by
  cases hused : bit bitmap ret with
  | false => exact ⟨1, ret, next, by simp [search, hused], hret, hused⟩
  | true =>
    have hinc : increment next = some (next + 1) := if_pos (by omega)
    by_cases hwrap : next + 1 = 0x10000
    · obtain ⟨rounds, port, next', heq, hport⟩ := hback hwrap
      refine ⟨rounds + 1, port, next', ?_, hport⟩
      rw [search, if_pos hused, hinc, Option.bind_some, if_pos hwrap, heq]
    · obtain ⟨rounds, port, next', heq, hport⟩ := hon hwrap hused
      refine ⟨rounds + 1, port, next', ?_, hport⟩
      rw [search, if_pos hused, hinc, Option.bind_some, if_neg hwrap, heq]

/-- Once the cursor has been set back, it stands at the port that is looked at. -/
theorem ends_set_back (hm : Dynamic m) (hp : p < 0x10000) (hle : m ≤ p)
    (hfree : bit bitmap p = false) : Ends bitmap m m := by
  obtain ⟨k, rfl⟩ := Nat.exists_eq_add_of_le hle
  induction k generalizing m with
  | zero => exact ⟨1, m, m, by simp_all [search], hm, hfree⟩
  | succ k ih =>
    apply ends_of hm (by omega) (fun hwrap => absurd hwrap (by omega))
    intro hon hused
    rw [Nat.mod_eq_of_lt (by omega)]
    rw [show m + (k + 1) = m + 1 + k by omega] at hp hfree
    exact ih ⟨hm.1.trans (Nat.le_succ m), by omega⟩ hp (by omega) hfree

/-- Before, it stands behind that port, so that the last one is passed over. -/
theorem ends_first (hn : Dynamic n) (hlast : n < 0xFFFF) (hp : Dynamic p)
    (hfree : bit bitmap p = false) : Ends bitmap n (n + 1) := by
  obtain ⟨k, hk⟩ := Nat.exists_eq_add_of_lt hlast
  induction k generalizing n with
  | zero =>
    exact ends_of hn (by omega) (fun _ => ends_set_back ⟨le_rfl, by decide⟩ hp.2 hp.1 hfree)
      fun hon => absurd (by omega) hon
  | succ k ih =>
    apply ends_of hn (by omega) (fun hwrap => absurd hwrap (by omega))
    intro hon _
    rw [Nat.mod_eq_of_lt (by omega)]
    exact ih ⟨hn.1.trans (Nat.le_succ n), by omega⟩ (by omega) (by omega)

/-- While some port of the range is free, a call ends with one that was free and is marked, and
changes no other mark. -/
theorem unused_port_found (rand : ℤ) (ops : List Op) (hrand : 0 ≤ rand.tmod 128)
    (hrun : run step (initialise rand) ops = some s) (hcursor : CursorInside s) (hp : Dynamic p)
    (hfree : bit s.bitmap p = false) :
    ∃ rounds port t, getUnusedPort rounds s = some (port, t) ∧ Dynamic port ∧
      bit s.bitmap port = false ∧ ∀ q, bit t.bitmap q = (bit s.bitmap q || decide (q = port)) := by
  have hstart : Above (initialise rand) := by
    rw [Above, initialise]
    dsimp only
    omega
  have habove : Above s := run_preserves (fun _ _ _ => step_above) hstart hrun
  have hinc : increment s.nextOutPort = some (s.nextOutPort + 1) := by
    refine if_pos ?_
    rcases hcursor with hlt | ⟨heq, -⟩ <;> omega
  have hends : Ends s.bitmap (s.nextOutPort % 2 ^ 16) (s.nextOutPort + 1) := by
    rcases hcursor with hlt | ⟨heq, hlast⟩
    · rw [mod_eq_of_lt (by omega)]
      exact ends_first ⟨habove, by omega⟩ hlt hp hfree
    · rw [heq]
      exact ⟨1, 0xFFFF, 0x10000, by simp [search, hlast], ⟨by decide, by decide⟩, hlast⟩
  obtain ⟨rounds, port, next, hsearch, hport, hwas⟩ := hends
  refine ⟨rounds, port, ⟨next, setBit s.bitmap port⟩, ?_, hport, hwas,
    (bit_setBit (by decide) · port)⟩
  rw [getUnusedPort, hinc, Option.bind_some, hsearch]
  rfl

def onePort : Ports := ⟨0xC001, setBit (fun _ => 0) 0xC000⟩

theorem second_port_found :
    ∃ rounds port t, getUnusedPort rounds onePort = some (port, t) ∧ Dynamic port ∧
      bit onePort.bitmap port = false ∧
      ∀ q, bit t.bitmap q = (bit onePort.bitmap q || decide (q = port)) :=
  unused_port_found 0 [.getUnused 1] (p := 0xC001) (by decide) rfl (.inl (by decide))
    ⟨by decide, by decide⟩ (by decide)

/-- With the first number that `rand` gives, the first call returns a port below the range. -/
theorem port_below_range :
    (getUnusedPort 1 (initialise (-593279510))).map Prod.fst = some 0xBFEA := by decide

end TcpPorts
