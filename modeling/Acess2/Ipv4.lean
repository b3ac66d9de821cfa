import Acess2.NetPackets

/-! Packets that come in from an adapter (`ipv4.c`), up to the call of a protocol's handler. The
interfaces of the adapter, the firewall and the handlers that are registered are parameters. -/
namespace Ipv4

open List NetPackets

structure Stack (ι : Type) where
  getInterface : UInt32 → Option ι
  /-- `IPTables_TestChain`, for the chain `INPUT` or `FORWARD` -/
  testChain : Bool → Packet → ℤ → ℤ
  hasCallback : UInt8 → Bool

inductive Outcome (ι : Type) where
  | dropped
  /-- a handler is called with `data`, a place in the packet, and `dataLength` -/
  | handled (iface : ι) (protocol : UInt8) (data : ℕ) (dataLength : ℤ)

def word (p : Packet) (i : ℕ) : Except Fault ℕ :=
  (p.word16 (2 * i)).map fun w => if i = 5 then 0 else w.toNat

def sumWords (p : Packet) : ℕ → Except Fault ℕ
  | 0 => .ok 0
  | n + 1 => do
    let sum ← sumWords p n
    let w ← word p n
    return sum + w

/-- The carries are added to the low half; two passes are enough for a `Uint32`. -/
def addCarries : ℕ → ℕ → ℕ
  | 0, sum => sum
  | fuel + 1, sum =>
    if sum / 2 ^ 16 = 0 then sum else addCarries fuel (sum % 2 ^ 16 + sum / 2 ^ 16)

/-- `IPv4_Checksum`, of so many bytes of the packet -/
def checksum (p : Packet) (length : ℕ) : Except Fault ℕ := do
  let sum ← sumWords p (length / 2)
  let last ← if length % 2 = 0 then .ok 0 else (word p (length / 2)).map fun w => w / 256 * 256
  return 2 ^ 16 - 1 - addCarries 2 (sum + last)

def deliver {ι : Type} (s : Stack ι) (p : Packet) (total : ℕ) : Outcome ι :=
  let dataLength : ℤ := total - 20
  match s.getInterface (ntohl (p.mem 16) (p.mem 17) (p.mem 18) (p.mem 19)) with
  -- a packet to be routed is not sent on
  | none => .dropped
  | some iface =>
    let ret := s.testChain true p dataLength
    if ret ≠ 0 ∧ ret ≠ -1 then .dropped
    else if s.hasCallback (p.mem 9) = false then .dropped
    else .handled iface (p.mem 9) 20 dataLength

def checkTotal {ι : Type} (s : Stack ι) (p : Packet) : Except Fault (Outcome ι) :=
  (p.word16 2).map fun total =>
    if p.length < total.toNat then .dropped else deliver s p total.toNat

def getPacket {ι : Type} (s : Stack ι) (p : Packet) : Except Fault (Outcome ι) :=
  if p.length < 20 then .ok .dropped
  else do
    let first ← p.byte 0
    if first >>> 4 ≠ 4 then return .dropped
    else
      let hdrVal ← p.word16 10
      let compVal ← checksum p ((first &&& 0xF).toNat * 4)
      if hdrVal.toNat ≠ compVal then return .dropped else checkTotal s p

variable {ι : Type} {s : Stack ι} {p : Packet} {n : ℕ}

section

variable (p)

def version : UInt8 := p.mem 0 >>> 4
def headerLength : ℕ := (p.mem 0 &&& 0xF).toNat
def totalLength : ℕ := (ntohs (p.mem 2) (p.mem 3)).toNat

def wordAt (i : ℕ) : ℕ := (ntohs (p.mem (2 * i)) (p.mem (2 * i + 1))).toNat

def ChecksumValid : Prop :=
  ((List.range (2 * headerLength p)).map (wordAt p)).sum % (2 ^ 16 - 1) = 0

end

structure Acceptable (p : Packet) : Prop where
  version : version p = 4
  header : 20 ≤ headerLength p * 4
  data : headerLength p * 4 ≤ totalLength p
  total : totalLength p ≤ p.length
  checksum : ChecksumValid p

/-- The packet is read inside its bounds only, and a handler is called only if it is acceptable,
and then with its data. -/
def Delivers (s : Stack ι) (p : Packet) : Prop :=
  ∃ out, getPacket s p = .ok out ∧
    ∀ iface protocol data dataLength, out = .handled iface protocol data dataLength →
      Acceptable p ∧ data = headerLength p * 4 ∧ dataLength = totalLength p - headerLength p * 4

def Checked (p : Packet) : Prop := 20 ≤ p.length ∧ version p = 4

/-- A header inside the packet that, if it passes the checks, has no options and counts itself -/
structure Plain (p : Packet) : Prop where
  inside : Checked p → headerLength p * 4 ≤ p.length
  options : Checked p → checksum p (headerLength p * 4) = .ok (wordAt p 5) →
    totalLength p ≤ p.length → headerLength p = 5 ∧ 20 ≤ totalLength p

theorem word16_eq {i : ℕ} (hi : i + 1 < p.length) :
    p.word16 i = .ok (ntohs (p.mem i) (p.mem (i + 1))) := by
  rw [Packet.word16, Packet.byte_eq (Nat.lt_of_succ_lt hi), Packet.byte_eq hi]
  rfl

theorem sumWords_eq (h : 2 * n ≤ p.length) : sumWords p n =
    .ok ((List.range n).map fun i => if i = 5 then 0 else wordAt p i).sum := by
  induction n with
  | zero => rfl
  | succ n ih =>
    have hword : word p n = .ok (if n = 5 then 0 else wordAt p n) := by
      rw [word, word16_eq (by omega)]
      rfl
    rw [sumWords, ih (by omega), hword, range_succ, map_append, sum_append]
    simp [bind, Except.bind, pure, Except.pure]

theorem addCarries_mod (fuel sum : ℕ) :
    addCarries fuel sum % (2 ^ 16 - 1) = sum % (2 ^ 16 - 1) := by
  induction fuel generalizing sum with
  | zero => rfl
  | succ fuel ih =>
    rw [addCarries]
    split_ifs
    · rfl
    · rw [ih]
      omega

theorem addCarries_lt {sum : ℕ} (h : sum < 2 ^ 32) : addCarries 2 sum < 2 ^ 16 := by
  simp only [addCarries]
  split_ifs <;> omega

theorem checksum_eq (h : headerLength p * 4 ≤ p.length) :
    ∃ sum, checksum p (headerLength p * 4) = .ok (2 ^ 16 - 1 - addCarries 2 sum) ∧
      sum = ((List.range (2 * headerLength p)).map fun i =>
        if i = 5 then 0 else wordAt p i).sum := by
  refine ⟨_, ?_, rfl⟩
  have hhalf : headerLength p * 4 / 2 = 2 * headerLength p := by omega
  have heven : headerLength p * 4 % 2 = 0 := by omega
  rw [checksum, hhalf, heven, sumWords_eq (by omega)]
  rfl

theorem checksumValid_of_eq (hlen : headerLength p = 5) (hin : 20 ≤ p.length)
    (h : checksum p (headerLength p * 4) = .ok (wordAt p 5)) : ChecksumValid p := by
  obtain ⟨sum, hsum, hwords⟩ := checksum_eq (p := p) (by omega)
  have hval := Except.ok.inj (hsum.symm.trans h)
  have hlt : ∀ i, wordAt p i < 2 ^ 16 := fun i => UInt16.toNat_lt _
  rw [hlen] at hwords
  rw [ChecksumValid, hlen]
  simp only [Nat.reduceMul, range_succ, range_zero, map_append, map_cons,
    map_nil, sum_append, sum_cons, sum_nil, nil_append] at hwords ⊢
  have hbound : sum < 2 ^ 32 := by
    have h0 := hlt 0; have h1 := hlt 1; have h2 := hlt 2; have h3 := hlt 3; have h4 := hlt 4
    have h6 := hlt 6; have h7 := hlt 7; have h8 := hlt 8; have h9 := hlt 9
    simp at hwords
    omega
  have hmod := addCarries_mod 2 sum
  have hfold := addCarries_lt hbound
  simp at hwords
  omega

theorem deliver_handled {total : ℕ} {iface : ι} {protocol : UInt8} {data : ℕ} {dataLength : ℤ}
    (h : deliver s p total = .handled iface protocol data dataLength) :
    data = 20 ∧ dataLength = total - 20 := by
  simp only [deliver] at h
  split at h
  · cases h
  · split_ifs at h
    cases h
    exact ⟨rfl, rfl⟩

theorem word_outside (h : p.length ≤ 2 * n + 1) : ∃ fault, word p n = .error fault := by
  have hbyte : p.byte (2 * n + 1) = .error .packet := if_neg (not_lt.mpr h)
  rw [word, Packet.word16, hbyte]
  cases p.byte (2 * n) <;> exact ⟨_, rfl⟩

theorem checksum_outside (h : p.length < headerLength p * 4) :
    ∃ fault, checksum p (headerLength p * 4) = .error fault := by
  obtain ⟨n, hn⟩ : ∃ n, headerLength p * 4 / 2 = n + 1 := ⟨headerLength p * 4 / 2 - 1, by omega⟩
  obtain ⟨fault, hword⟩ := word_outside (p := p) (n := n) (by omega)
  rw [checksum, hn, sumWords, hword]
  cases sumWords p n <;> exact ⟨_, rfl⟩

theorem getPacket_checked (s : Stack ι) (h : Checked p) : getPacket s p =
    (checksum p (headerLength p * 4)).map fun compVal =>
      if wordAt p 5 ≠ compVal ∨ p.length < totalLength p then .dropped
      else deliver s p (totalLength p) := by
  obtain ⟨hlen, hversion⟩ := h
  have hbyte : p.byte 0 = .ok (p.mem 0) := Packet.byte_eq (by omega)
  have hval : p.word16 10 = .ok (ntohs (p.mem 10) (p.mem 11)) := word16_eq (by omega)
  have htotal : p.word16 2 = .ok (ntohs (p.mem 2) (p.mem 3)) := word16_eq (by omega)
  rw [version] at hversion
  rw [getPacket, if_neg (by omega), hbyte, hval]
  simp only [bind, Except.bind, hversion, ne_eq, not_true_eq_false, if_false]
  rw [show (p.mem 0 &&& 0xF).toNat = headerLength p from rfl]
  cases checksum p (headerLength p * 4) with
  | error fault => rfl
  | ok compVal =>
    simp only [checkTotal, htotal, Except.map, pure, Except.pure]
    by_cases hcmp : wordAt p 5 = compVal
    · refine (if_neg (not_not.mpr hcmp)).trans ?_
      simp only [hcmp, not_true_eq_false, false_or]
      rfl
    · exact (if_pos hcmp).trans (congrArg Except.ok (if_pos (.inl hcmp)).symm)

theorem getPacket_unchecked (s : Stack ι) (h : ¬ Checked p) : getPacket s p = .ok .dropped := by
  rw [getPacket]
  split_ifs with hshort
  · rfl
  have hversion : p.mem 0 >>> 4 ≠ 4 := fun hversion => h ⟨by omega, hversion⟩
  rw [Packet.byte_eq (by omega)]
  simp only [bind, Except.bind, hversion, ne_eq, not_false_eq_true, if_true]
  rfl

def accepting : Stack Unit := ⟨fun _ => some (), fun _ _ _ => 0, fun _ => true⟩

/-- With every interface, firewall and handler a packet is handed on as it should be, exactly if
it is plain. -/
theorem getPacket_delivers (p : Packet) :
    (∀ (ι : Type) (s : Stack ι), Delivers s p) ↔ Plain p := by
  constructor
  · intro hall
    obtain ⟨out, hout, hclaim⟩ := hall Unit accepting
    constructor
    case inside =>
      intro hchecked
      by_contra hlong
      obtain ⟨fault, hfault⟩ := checksum_outside (not_le.mp hlong)
      rw [getPacket_checked accepting hchecked, hfault] at hout
      cases hout
    case options =>
      intro hchecked hsum htotal
      rw [getPacket_checked accepting hchecked, hsum] at hout
      have hhandled : out = .handled () (p.mem 9) 20 (totalLength p - 20) := by
        rw [← Except.ok.inj hout]
        exact if_neg (by omega)
      obtain ⟨hacc, hdata, -⟩ := hclaim _ _ _ _ hhandled
      exact ⟨by omega, hdata ▸ hacc.data⟩
  · intro hplain ι s
    by_cases hchecked : Checked p
    · have hin := hplain.inside hchecked
      obtain ⟨sum, hsum, -⟩ := checksum_eq hin
      refine ⟨_, by rw [getPacket_checked s hchecked, hsum]; rfl, ?_⟩
      intro iface protocol data dataLength hout
      dsimp only at hout
      split_ifs at hout with hdrop
      obtain ⟨hcmp, hle⟩ := not_or.mp hdrop
      have hcheck : checksum p (headerLength p * 4) = .ok (wordAt p 5) :=
        hsum.trans (congrArg Except.ok (not_not.mp hcmp).symm)
      obtain ⟨hlen, htot⟩ := hplain.options hchecked hcheck (not_lt.mp hle)
      obtain ⟨hdata, hdlen⟩ := deliver_handled hout
      refine ⟨⟨hchecked.2, by omega, by omega, not_lt.mp hle,
        checksumValid_of_eq hlen hchecked.1 hcheck⟩, by omega, ?_⟩
      rw [hdlen, hlen]
      rfl
    · exact ⟨.dropped, getPacket_unchecked s hchecked, fun _ _ _ _ h => by cases h⟩

/-- A packet of 22 bytes to 10.0.0.2 with no options, from the bytes of its header on -/
def datagram : Packet where
  length := 22
  mem i := ([0x45, 0, 0, 22, 0, 0, 0, 0, 32, 17, 0x86, 0xD5, 10, 0, 0, 1, 10, 0, 0, 2, 7, 8] :
    List UInt8).getD i 0
  int := by decide

/-- The same with an option of four bytes in front of the data -/
def withOption : Packet where
  length := 26
  mem i := ([0x46, 0, 0, 26, 0, 0, 0, 0, 32, 17, 0x84, 0xD0, 10, 0, 0, 1, 10, 0, 0, 2,
    1, 1, 0, 0, 7, 8] : List UInt8).getD i 0
  int := by decide

theorem datagram_plain : Plain datagram := by
  constructor <;> (unfold Checked; decide +kernel)

theorem datagram_delivered :
    getPacket accepting datagram = .ok (.handled () 17 20 2) ∧ Delivers accepting datagram :=
  ⟨by rfl, (getPacket_delivers datagram).mpr datagram_plain Unit accepting⟩

/-- The handler gets the option as the first bytes of the data. -/
theorem withOption_delivered :
    getPacket accepting withOption = .ok (.handled () 17 20 6) ∧
      headerLength withOption * 4 = 24 := by
  exact ⟨by rfl, by rfl⟩

end Ipv4
