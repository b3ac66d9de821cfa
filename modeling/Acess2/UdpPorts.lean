import Acess2.GuardedRuns
import Acess2.WordBitmaps

/-! The local ports of UDP channels (`udp.c`). They are recorded in the channels, and those of the
dynamic range in a bitmap too. Channels are numbers in the order of their creation. -/
namespace UdpPorts

open Function GuardedRuns List Option WordBitmaps

section Model

variable {ι : Type} [DecidableEq ι]

/-- `gpUDP_Channels` with the fields of the channels, and `gUDP_Ports` -/
structure Stack (ι : Type) where
  channels : List ℕ
  interface : ℕ → Option ι
  localPort : ℕ → ℕ
  ports : Bitmap 32
  made : ℕ

def allocBase : ℕ := 0xC000

def Dynamic (port : ℕ) : Prop := allocBase ≤ port ∧ port < 0x10000

instance : DecidablePred Dynamic := fun _ => inferInstanceAs (Decidable (_ ∧ _))

def channelInit (s : Stack ι) (interface : Option ι) : Stack ι :=
  { s with
    channels := s.made :: s.channels
    interface := update s.interface s.made interface
    localPort := update s.localPort s.made 0
    made := s.made + 1 }

/-- `UDP_int_ClaimPort`; the result says that the port is in use. -/
def claimPort (s : Stack ι) (chan port : ℕ) : Bool × Stack ι :=
  if ∃ ch ∈ s.channels, ch ≠ chan ∧ (s.interface ch = none ∨ s.interface ch = s.interface chan) ∧
      s.localPort ch = port then (true, s)
  else (false, { s with localPort := update s.localPort chan port })

/-- The search of `UDP_int_AllocatePort`, for as many words as `base` has left -/
def allocateFrom (chan : ℕ) : ℕ → ℕ → Stack ι → ℕ × Stack ι
  | 0, _, s => (0, s)
  | words + 1, base, s =>
    if s.ports (base / 32) = BitVec.allOnes 32 then allocateFrom chan words (base + 32) s
    else
      match (List.range 32).find? fun i => !bit s.ports (base + i) with
      | none => allocateFrom chan words (base + 32) s
      | some i =>
        match claimPort { s with ports := setBit s.ports (base + i) } chan (base + i) with
        | (false, s) => (base + i, s)
        | (true, s) => allocateFrom chan words (base + 32) s

def allocatePort (s : Stack ι) (chan : ℕ) : ℕ × Stack ι := allocateFrom chan 512 allocBase s

def channelClose (s : Stack ι) (chan : ℕ) : Stack ι :=
  { s with channels := s.channels.erase chan }

inductive Op (ι : Type) where
  | create (interface : Option ι)
  | claim (chan : ℕ) (port : Fin 0x10000)
  | allocate (chan : ℕ)
  | close (chan : ℕ)

def step (s : Stack ι) : Op ι → Option (Stack ι)
  | .create interface => some (channelInit s interface)
  | .claim chan port => if chan ∈ s.channels then some (claimPort s chan port).2 else none
  | .allocate chan => if chan ∈ s.channels then some (allocatePort s chan).2 else none
  | .close chan => if chan ∈ s.channels then some (channelClose s chan) else none

def empty : Stack ι := ⟨[], fun _ => none, fun _ => 0, fun _ => 0, 0⟩

/-- Ports of the dynamic range are not claimed or given up, and a channel without an interface
claims no port of one with an interface. -/
def Guard (s : Stack ι) : Op ι → Prop
  | .create _ => True
  | .claim chan port => ¬ Dynamic (s.localPort chan) ∧ ¬ Dynamic port ∧ (s.interface chan = none →
        ∀ c ∈ s.channels, c ≠ chan → s.interface c ≠ none → s.localPort c ≠ port)
  | .allocate chan | .close chan => ¬ Dynamic (s.localPort chan)

instance (s : Stack ι) : DecidablePred (Guard s) := fun c => by
  cases c <;> dsimp only [Guard] <;> infer_instance

def Overlap (i j : Option ι) : Prop := i = none ∨ j = none ∨ i = j

instance (i j : Option ι) : Decidable (Overlap i j) := inferInstanceAs (Decidable (_ ∨ _))

/-- No two channels whose interfaces overlap have one port. -/
def Owned (s : Stack ι) : Prop :=
  ∀ c ∈ s.channels, ∀ d ∈ s.channels, c ≠ d → Overlap (s.interface c) (s.interface d) →
    s.localPort c ≠ 0 → s.localPort c ≠ s.localPort d

instance (s : Stack ι) : Decidable (Owned s) := inferInstanceAs (Decidable (∀ c ∈ _, _))

end Model

variable {ι : Type} {s t : Stack ι} {chan base words p : ℕ} {interface : Option ι}

theorem Overlap.symm {i j : Option ι} : Overlap i j → Overlap j i := by
  rintro (h | h | h)
  · exact .inr (.inl h)
  · exact .inl h
  · exact .inr (.inr h.symm)

def Held (s : Stack ι) (port : ℕ) : Prop := ∃ c ∈ s.channels, s.localPort c = port

structure InStep (s : Stack ι) : Prop where
  fresh : ∀ c ∈ s.channels, c < s.made
  marked : ∀ p, Dynamic p → (bit s.ports p = true ↔ Held s p)
  owned : Owned s

theorem InStep.channelInit (h : InStep s) : InStep (channelInit s interface) := by
  have hne : ∀ c ∈ s.channels, c ≠ s.made := fun c hc => (h.fresh c hc).ne
  refine ⟨?_, fun p hp => (h.marked p hp).trans ?_, fun c hc d hd hcd hover hport => ?_⟩
  · simpa [UdpPorts.channelInit] using fun c hc => Nat.lt_succ_of_lt (h.fresh c hc)
  · have hzero : 0 ≠ p := fun heq => by simp [Dynamic, allocBase, ← heq] at hp
    simp only [Held, UdpPorts.channelInit, mem_cons, exists_eq_or_imp, update_self, hzero, false_or]
    exact exists_congr fun c => and_congr_right fun hc => by rw [update_of_ne (hne c hc)]
  · have hnew : ∀ c, c ∈ s.made :: s.channels → update s.localPort s.made 0 c ≠ 0 →
        c ∈ s.channels := fun c hc hport => (mem_cons.mp hc).resolve_left fun heq => by
      simp [heq] at hport
    intro heq
    have hc' := hnew c hc hport
    have hd' := hnew d hd fun hzero => hport (heq.trans hzero)
    simp only [UdpPorts.channelInit, update_of_ne (hne c hc'), update_of_ne (hne d hd')]
      at hover hport heq
    exact h.owned c hc' d hd' hcd hover hport heq

theorem InStep.give {ports : Bitmap 32} (h : InStep s) (hchan : chan ∈ s.channels)
    (hold : ¬ Dynamic (s.localPort chan))
    (hfree : ∀ c ∈ s.channels, c ≠ chan → Overlap (s.interface c) (s.interface chan) →
      s.localPort c ≠ p)
    (hports : ∀ n, Dynamic n → (bit ports n = true ↔ bit s.ports n = true ∨ n = p)) :
    InStep { s with ports := ports, localPort := update s.localPort chan p } := by
  refine ⟨h.fresh, fun n hn => (hports n hn).trans ?_, fun c hc d hd hcd hover hport => ?_⟩
  · rw [h.marked n hn]
    constructor
    · rintro (⟨c, hc, rfl⟩ | rfl)
      · exact ⟨c, hc, update_of_ne (fun heq : c = chan => hold (heq ▸ hn)) ..⟩
      · exact ⟨chan, hchan, update_self ..⟩
    · rintro ⟨c, hc, rfl⟩
      by_cases hcc : c = chan
      · exact .inr (hcc ▸ update_self ..)
      · exact .inl ⟨c, hc, (update_of_ne hcc ..).symm⟩
  · dsimp only at *
    by_cases hcc : c = chan
    · subst hcc
      rw [update_self, update_of_ne (Ne.symm hcd)]
      exact fun heq => hfree d hd (Ne.symm hcd) hover.symm heq.symm
    rw [update_of_ne hcc] at hport ⊢
    by_cases hdc : d = chan
    · subst hdc
      rw [update_self]
      exact hfree c hc hcc hover
    · rw [update_of_ne hdc]
      exact h.owned c hc d hd hcd hover hport

variable [DecidableEq ι]

theorem InStep.claimPort {port : Fin 0x10000} (h : InStep s) (hchan : chan ∈ s.channels)
    (hguard : Guard s (.claim chan port)) : InStep (claimPort s chan port).2 := by
  obtain ⟨hold, hdyn, hwild⟩ := hguard
  rw [UdpPorts.claimPort]
  split_ifs with huse
  · exact h
  refine h.give hchan hold (fun c hc hne hover heq => ?_) fun n hn =>
    ⟨.inl, fun hn' => hn'.resolve_right fun heq => hdyn (heq ▸ hn)⟩
  by_cases hnone : s.interface c = none
  · exact huse ⟨c, hc, hne, .inl hnone, heq⟩
  · rcases hover with hover | hover | hover
    · exact hnone hover
    · exact hwild hover c hc hne hnone heq
    · exact huse ⟨c, hc, hne, .inr hover, heq⟩

/-- The search takes the first port that is not marked, or all of them are. -/
theorem allocateFrom_spec (h : InStep s) (chan : ℕ) (hbase : base % 32 = 0)
    (hlow : allocBase ≤ base) (hhigh : base + 32 * words ≤ 0x10000) :
    (∃ p, Dynamic p ∧ bit s.ports p = false ∧ allocateFrom chan words base s =
      (p, { s with ports := setBit s.ports p, localPort := update s.localPort chan p })) ∨
    (allocateFrom chan words base s = (0, s) ∧
      ∀ p, base ≤ p → p < base + 32 * words → bit s.ports p = true) := by
  induction words generalizing base with
  | zero => exact .inr ⟨rfl, fun p hp hp' => absurd hp' (by omega)⟩
  | succ words ih =>
    have hnext := @ih (base + 32) (by omega) (by omega) (by omega)
    have hword : (∀ i < 32, bit s.ports (base + i) = true) →
        allocateFrom chan (words + 1) base s = allocateFrom chan words (base + 32) s := by
      intro hbits
      have hnone : (range 32).find? (fun i => !bit s.ports (base + i)) = none := by
        simpa using hbits
      rw [allocateFrom, hnone]
      split_ifs <;> rfl
    by_cases hbits : ∀ i < 32, bit s.ports (base + i) = true
    · rw [hword hbits]
      refine hnext.imp_right fun ⟨heq, hrest⟩ => ⟨heq, fun p hp hp' => ?_⟩
      by_cases hlt : p < base + 32
      · exact Nat.add_sub_cancel' hp ▸ hbits (p - base) (by omega)
      · exact hrest p (by omega) (by omega)
    obtain ⟨i, hi⟩ : ∃ i, (range 32).find? (fun i => !bit s.ports (base + i)) = some i :=
      isSome_iff_exists.mp (find?_isSome.mpr (by simpa using hbits))
    have hclear : bit s.ports (base + i) = false := by simpa using find?_some hi
    have hlt : i < 32 := mem_range.mp (mem_of_find?_eq_some hi)
    have hdyn : Dynamic (base + i) := ⟨by omega, by omega⟩
    have hfull : s.ports (base / 32) ≠ BitVec.allOnes 32 := by
      intro hfull
      have hset := (full_iff (by decide) _).mp hfull (base + i) (by omega)
      simp [hset] at hclear
    refine .inl ⟨base + i, hdyn, hclear, ?_⟩
    have hunheld : ¬ Held s (base + i) := fun hheld => by
      simp [(h.marked _ hdyn).mpr hheld] at hclear
    simp only [allocateFrom, if_neg hfull, hi, UdpPorts.claimPort]
    rw [if_neg]
    rintro ⟨c, hc, -, -, hport⟩
    exact hunheld ⟨c, hc, hport⟩

theorem allocatePort_spec (h : InStep s) (chan : ℕ) :
    (∃ p, Dynamic p ∧ bit s.ports p = false ∧ allocatePort s chan =
      (p, { s with ports := setBit s.ports p, localPort := update s.localPort chan p })) ∨
    (allocatePort s chan = (0, s) ∧ ∀ p, Dynamic p → bit s.ports p = true) :=
  (allocateFrom_spec h chan (by decide) le_rfl (by decide)).imp_right fun ⟨heq, hbits⟩ =>
    ⟨heq, fun p hp => hbits p hp.1 hp.2⟩

theorem InStep.step {op : Op ι} (h : InStep s) (hguard : Guard s op) (hstep : step s op = some t) :
    InStep t := by
  cases op with
  | create interface => exact some.inj hstep ▸ h.channelInit
  | claim chan port =>
    obtain ⟨hchan, heq⟩ := ite_none_right_eq_some.mp hstep
    exact some.inj heq ▸ h.claimPort hchan hguard
  | allocate chan =>
    obtain ⟨hchan, heq⟩ := ite_none_right_eq_some.mp hstep
    cases heq
    rcases allocatePort_spec h chan with ⟨p, hp, hclear, heq⟩ | ⟨heq, -⟩
    · rw [heq]
      refine h.give hchan hguard (fun c hc _ _ hport => ?_) fun n _ => ?_
      · simp [(h.marked p hp).mpr ⟨c, hc, hport⟩] at hclear
      · rw [bit_setBit (by decide), Bool.or_eq_true, decide_eq_true_iff]
    · rwa [heq]
  | close chan =>
    obtain ⟨-, heq⟩ := ite_none_right_eq_some.mp hstep
    cases heq
    refine ⟨fun c hc => h.fresh c (mem_of_mem_erase hc), fun p hp => (h.marked p hp).trans ?_,
      fun c hc d hd => h.owned c (mem_of_mem_erase hc) d (mem_of_mem_erase hd)⟩
    refine exists_congr fun c => and_congr_left fun hport => ?_
    refine (mem_erase_of_ne ?_).symm
    rintro rfl
    exact hguard (hport ▸ hp)

/-- Under the conditions no port has two owners, and an allocation fails only when all are held. -/
theorem ports_owned (ops : List (Op ι)) (hguard : Along UdpPorts.step Guard empty ops)
    (hrun : run UdpPorts.step empty ops = some s) :
    Owned s ∧ ∀ chan, (allocatePort s chan).1 = 0 → ∀ p, Dynamic p → Held s p := by
  have hempty : InStep (empty : Stack ι) :=
    ⟨by simp [empty], fun p _ => by simp [empty, Held, bit], by simp [Owned, empty]⟩
  have h := run_invariant (fun _ _ _ h hg => h.step hg) hempty hguard hrun
  refine ⟨h.owned, fun chan hzero p hp => ?_⟩
  rcases allocatePort_spec h chan with ⟨q, hq, -, heq⟩ | ⟨-, hbits⟩
  · obtain rfl : q = 0 := by simpa [heq] using hzero
    exact absurd hq (by decide)
  · exact (h.marked p hp).mp (hbits p hp)

def fourChannels : List (Op Bool) :=
  [.create (some false), .create (some true), .create none, .create (some false), .claim 0 53,
   .claim 1 53,
    .claim 2 67, .claim 3 67, .claim 2 68, .allocate 3, .close 0]

theorem fourChannels_owned : Along UdpPorts.step Guard empty fourChannels ∧
    ∃ s, run UdpPorts.step empty fourChannels = some s ∧ Owned s ∧
      ∀ chan, (allocatePort s chan).1 = 0 → ∀ p, Dynamic p → Held s p := by
  have hguard : Along UdpPorts.step Guard empty fourChannels := by decide +kernel
  obtain ⟨s, hs⟩ : ∃ s, run UdpPorts.step empty fourChannels = some s :=
    isSome_iff_exists.mp (by decide +kernel)
  exact ⟨hguard, s, hs, ports_owned fourChannels hguard hs⟩

/-- A channel without an interface gets a port that is held; an allocated port stays marked. -/
theorem port_shared_and_lost : (run UdpPorts.step (empty : Stack Bool)
        [.create (some false), .create none, .claim 0 53, .claim 1 53]).map (decide <| Owned ·) =
      some false ∧
    (run UdpPorts.step (empty : Stack Bool) [.create none, .allocate 0, .close 0]).map
        (fun s => (s.channels, bit s.ports allocBase)) = some ([], true) := by
  decide +kernel

end UdpPorts
