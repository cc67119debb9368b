/-
# TarantoolC.Sha1.Standard — SHA-1 as the standard has it.

A message is padded to whole blocks of 64 bytes; a block is spread into 80 words (`schedule`); five
variables go through 80 rounds (`step`) and are added to the hash of the blocks before.

It is written for reading, not for running.  Nothing here names a program.

It is the specification side of `TarantoolC.Sha1.Stream`: `schedule` is a function on all round
numbers (the code overwrites 16 words in a ring), `rounds` goes over the round number (the code has
its 80 rounds unrolled), and `padded` is a list (the code feeds its padding byte by byte).  So none
of the shapes of the code is presupposed here.
-/
import TarantoolC.Blocks
import TarantoolC.MsgPack.Format

namespace TarantoolC.Sha1

open MsgPack Blocks

/-- The five words of a hash, and the five variables of the rounds. -/
@[ext] structure Chain where
  a : UInt32
  b : UInt32
  c : UInt32
  d : UInt32
  e : UInt32
  deriving Repr, DecidableEq

/-- The hash before the first block. -/
def initial : Chain := ⟨0x67452301, 0xEFCDAB89, 0x98BADCFE, 0x10325476, 0xC3D2E1F0⟩

/-- Rotation to the left. -/
def rotl (x n : UInt32) : UInt32 := (x <<< n) ||| (x >>> (32 - n))

def ch (x y z : UInt32) : UInt32 := (x &&& y) ^^^ (~~~x &&& z)

def parity (x y z : UInt32) : UInt32 := x ^^^ y ^^^ z

def maj (x y z : UInt32) : UInt32 := (x &&& y) ^^^ (x &&& z) ^^^ (y &&& z)

/-- The function of round `t`. -/
def function (t : Nat) : UInt32 → UInt32 → UInt32 → UInt32 :=
  if t < 20 then ch else if t < 40 then parity else if t < 60 then maj else parity

/-- The constant of round `t`. -/
def constant (t : Nat) : UInt32 :=
  if t < 20 then 0x5A827999 else if t < 40 then 0x6ED9EBA1 else if t < 60 then 0x8F1BBCDC
  else 0xCA62C1D6

/-- Word `t` of a block. -/
def word (block : Bytes) (t : Nat) : UInt32 := UInt32.ofNat (beNat ((block.drop (4 * t)).take 4))

/-- The word of round `t`. -/
def schedule (block : Bytes) (t : Nat) : UInt32 :=
  if t < 16 then word block t
  else rotl (schedule block (t - 3) ^^^ schedule block (t - 8) ^^^ schedule block (t - 14) ^^^
    schedule block (t - 16)) 1
termination_by t

/-- Round `t`. -/
def step (block : Bytes) (v : Chain) (t : Nat) : Chain where
  a := rotl v.a 5 + function t v.b v.c v.d + v.e + constant t + schedule block t
  b := v.a
  c := rotl v.b 30
  d := v.c
  e := v.d

/-- The variables after `t` rounds. -/
def rounds (block : Bytes) (h : Chain) (t : Nat) : Chain := (List.range t).foldl (step block) h

/-- One block. -/
def compress (h : Chain) (block : Bytes) : Chain :=
  let v := rounds block h 80
  ⟨h.a + v.a, h.b + v.b, h.c + v.c, h.d + v.d, h.e + v.e⟩

/-- A one, zeros up to 8 bytes before the end of a block, and the number of bits. -/
def padded (m : Bytes) : Bytes :=
  m ++ (0x80 :: List.replicate ((119 - m.length % 64) % 64) 0 ++ be 8 (8 * m.length))

/-- The words of a hash as bytes. -/
def digest (h : Chain) : Bytes :=
  be 4 h.a.toNat ++ be 4 h.b.toNat ++ be 4 h.c.toNat ++ be 4 h.d.toNat ++ be 4 h.e.toNat

/-- **SHA-1.** -/
def sha1 (m : Bytes) : Bytes := digest ((blocks 64 (padded m)).foldl compress initial)

/-- A digest has 20 bytes. -/
theorem digest_length (h : Chain) : (digest h).length = 20 := by simp [digest]

/-- ... so the hash of every message has. -/
theorem sha1_length (m : Bytes) : (sha1 m).length = 20 := digest_length _

/-- One more round. -/
theorem rounds_succ (block : Bytes) (h : Chain) (t : Nat) :
    rounds block h (t + 1) = step block (rounds block h t) t := by
  rw [rounds, List.range_succ, List.foldl_append]
  rfl

/-- The first 16 words are those of the block, ... -/
theorem schedule_of_lt (block : Bytes) {t : Nat} (h : t < 16) : schedule block t = word block t := by
  rw [schedule, if_pos h]

/-- ... and each later one comes from four before it. -/
theorem schedule_of_ge (block : Bytes) {t : Nat} (h : 16 ≤ t) :
    schedule block t = rotl (schedule block (t - 3) ^^^ schedule block (t - 8) ^^^
      schedule block (t - 14) ^^^ schedule block (t - 16)) 1 := by
  rw [schedule, if_neg (by omega)]

end TarantoolC.Sha1
