import Mathlib.Data.UInt

/-! Packets as they are handed to the protocols of the IP stack. Every access that could be outside
of a packet is checked. -/
namespace NetPackets

inductive Fault where
  /-- to a byte behind the end of a packet -/
  | packet
  /-- to a byte behind an array that is filled from packets -/
  | future
  deriving DecidableEq

structure Packet where
  length : ℕ
  mem : ℕ → UInt8
  int : length < 2 ^ 31

def Packet.byte (p : Packet) (i : ℕ) : Except Fault UInt8 :=
  if i < p.length then .ok (p.mem i) else .error .packet

def ntohs (a b : UInt8) : UInt16 := a.toUInt16 <<< 8 ||| b.toUInt16

def ntohl (a b c d : UInt8) : UInt32 := (ntohs a b).toUInt32 <<< 16 ||| (ntohs c d).toUInt32

def Packet.word16 (p : Packet) (i : ℕ) : Except Fault UInt16 := do
  let a ← p.byte i
  let b ← p.byte (i + 1)
  return ntohs a b

theorem Packet.byte_eq {p : Packet} {i : ℕ} (hi : i < p.length) : p.byte i = .ok (p.mem i) :=
  if_pos hi

end NetPackets
