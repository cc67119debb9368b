/-
# TarantoolC.PMurHash — the hash function of the tables (`third_party/PMurHash.c`).

`PMurHash32_Process` takes a key in pieces.  Between two pieces it keeps up to three bytes in a CARRY,
one word of 32 bits: the bytes stand at its upper end, their number in its lowest bits, and whatever
else is in it is left over from earlier blocks.

The file has two bodies for the function, chosen when it is compiled.  One reads words at any address;
it completes the block at hand byte by byte first.  The other reads words at aligned addresses only;
it goes on to the next aligned one, and from there puts each block together from two words, in one of
four ways according to the carry.

`process_carries` is about both: the carry is what is behind the whole blocks.  So neither the cuts
nor the addresses matter (`pMurHash32_pieces`), and `mh_hash` is the function the tables are modelled
with (`pMurHash32_eq_mhHash`).

What the model has of the numbers.  `h1`, the carry and the words are natural numbers below `2 ^
32`; every operation that could leave that range is taken modulo `2 ^ 32` as in the source.  The
lengths are not bounded here: the source has an `int` for the length of a piece and a `uint32_t` for
the total, so the theorems are about it for pieces shorter than `2 ^ 31` bytes that are together
shorter than `2 ^ 32`.  (The names of a schema are far below both.)

How it is proved.  The function is the machine of `TarantoolC.Blocks` for blocks of four bytes, and
`Carries` is its invariant inside a call: the bytes pending are at the upper end of `c`, their
number is `n`, and the lower bits are anything.  One turn of `DOBYTES` keeps it
(`Carries.afterBytes`); so do the word loops, which for a carry of `n` bytes put a block together
from the carry and the first `4 - n` bytes of the next word.  At the end of a call `n` goes into the
two lowest bits of the carry: that is `Kept`, what the caller holds.
-/
import TarantoolC.Blocks
import TarantoolC.Schema.Flush

namespace TarantoolC.PMurHash

open MsgPack Blocks Schema.Slots

/-! ## §1 — the code. -/

/-- Which body is compiled, and for the second one where the key is: `ptr & 3`. -/
inductive Access where
  | unaligned
  | aligned (ptr : Fin 4)
  deriving Repr, DecidableEq

/-- The local variables `h1`, `c` and `n`. -/
structure Locals where
  h1 : Nat
  c : Nat
  n : Nat

/-- A turn of `DOBYTES`.  `DOBLOCK(h1, c)` leaves the mixed word in `c`. -/
def doByte (v : Locals) (b : UInt8) : Locals :=
  let c := (v.c >>> 8) ||| (b.toNat <<< 24)
  if v.n + 1 = 4 then ⟨doBlock v.h1 c, mixK c, 0⟩ else ⟨v.h1, c, v.n + 1⟩

/-- `DOBYTES`. -/
def doBytes (v : Locals) (bs : Bytes) : Locals := bs.foldl doByte v

/-- `for( ; ptr < end ; ptr+=4)`, with `READ_UINT32(ptr)`. -/
def forWords {σ : Type} (body : σ → Nat → σ) : σ → Bytes → σ
  | s, b₀ :: b₁ :: b₂ :: b₃ :: rest => forWords body (body s (leNat [b₀, b₁, b₂, b₃])) rest
  | s, _ => s

/-- The bodies of the three cases with a carry of `n` bytes, for `h1` and `c`. -/
def carryBody (n : Nat) (p : Nat × Nat) (w : Nat) : Nat × Nat :=
  (doBlock p.1 ((p.2 >>> (32 - 8 * n)) ||| (w <<< (8 * n) % 2 ^ 32)), w)

/-- The first bytes, up to a block (or, in the second body, up to an aligned address): `i`. -/
def firstBytes (a : Access) (n : Nat) : Nat :=
  match a with
  | .unaligned => (4 - n) &&& 3
  | .aligned ptr => (4 - ptr.val) &&& 3

/-- The whole words. -/
def words (a : Access) (v : Locals) (key : Bytes) : Locals :=
  match a with
  | .unaligned => { v with h1 := forWords doBlock v.h1 key }
  | .aligned _ =>
    if v.n = 0 then { v with h1 := forWords doBlock v.h1 key }
    else
      let (h1, c) := forWords (carryBody v.n) (v.h1, v.c) key
      { v with h1 := h1, c := c }

/-- `PMurHash32_Process`: `*ph1` and `*pcarry`. -/
def pMurHash32Process (a : Access) (p : Nat × Nat) (key : Bytes) : Nat × Nat :=
  let v : Locals := ⟨p.1, p.2, p.2 &&& 3⟩
  let i := firstBytes a v.n
  let i := if i ≠ 0 ∧ i ≤ key.length then i else 0
  let v := doBytes v (key.take i)
  let key := key.drop i
  let whole := key.length / 4 * 4
  let v := words a v (key.take whole)
  let v := doBytes v (key.drop whole)
  (v.h1, (v.c &&& 0xffffff00) ||| v.n)

/-- `PMurHash32_Result`. -/
def pMurHash32Result (h carry totalLength : Nat) : Nat :=
  let n := carry &&& 3
  let h := if n ≠ 0 then h ^^^ mixK (carry >>> ((4 - n) * 8)) else h
  let h := h ^^^ totalLength
  let h := (h ^^^ (h >>> 16)) * 0x85ebca6b % 2 ^ 32
  let h := (h ^^^ (h >>> 13)) * 0xc2b2ae35 % 2 ^ 32
  h ^^^ (h >>> 16)

/-- `PMurHash32`. -/
def pMurHash32 (a : Access) (seed : Nat) (key : Bytes) : Nat :=
  let (h1, carry) := pMurHash32Process a (seed, 0) key
  pMurHash32Result h1 carry key.length

/-! ## §2 — the carry.

Bytes go in one at a time at the upper end.  A full word is a block, and what is below is shifted
out when it is used. -/

/-- A block of four bytes. -/
def block (h : Nat) (bs : Bytes) : Nat := doBlock h (leNat bs)

/-- The variables are between two bytes: `n` bytes are at the upper end of `c`. -/
structure Carries (v : Locals) (m : Fed Nat UInt8) : Prop where
  h1 : v.h1 = m.state
  n : v.n = m.pending.length
  lt : v.n < 4
  c_lt : v.c < 2 ^ 32
  c : v.c >>> (32 - 8 * v.n) = leNat m.pending

/-- A little-endian number with one more byte. -/
theorem leNat_append (bs : Bytes) (b : UInt8) :
    leNat (bs ++ [b]) = leNat bs + b.toNat * 256 ^ bs.length := by
  induction bs with
  | nil => simp [leNat]
  | cons x bs ih =>
    rw [List.cons_append, leNat, ih, leNat, List.length_cons, Nat.pow_succ]
    ring

/-- `k` bytes say a number below `256 ^ k`. -/
theorem leNat_lt (bs : Bytes) : leNat bs < 256 ^ bs.length := by
  induction bs with
  | nil => simp [leNat]
  | cons b bs ih =>
    have hb := b.toNat_lt
    rw [leNat, List.length_cons, Nat.pow_succ]
    omega

/-- The mixed word is a word. -/
theorem mixK_lt (k : Nat) : mixK k < 2 ^ 32 := Nat.mod_lt _ (by decide)

/-- A byte is pushed in at the upper end. -/
theorem pushed_eq {c : Nat} (hc : c < 2 ^ 32) (b : UInt8) :
    (c >>> 8) ||| (b.toNat <<< 24) = c / 256 + b.toNat * 2 ^ 24 := by
  have hlow : c >>> 8 < 2 ^ 24 := by
    rw [Nat.shiftRight_eq_div_pow]
    omega
  rw [Nat.or_comm, ← Nat.shiftLeft_add_eq_or_of_lt hlow, Nat.shiftLeft_eq, Nat.add_comm,
    Nat.shiftRight_eq_div_pow]

/-- One byte. -/
theorem Carries.afterByte {v : Locals} {m : Fed Nat UInt8} (h : Carries v m) (b : UInt8) :
    Carries (doByte v b) (push 4 block m b) := by
  have hb := b.toNat_lt
  have hc := h.c
  have hn := h.n
  have hlt := h.lt
  have hc_lt := h.c_lt
  have happ := leNat_append m.pending b
  rw [Nat.shiftRight_eq_div_pow] at hc
  rw [← hn] at happ
  -- what is behind the bytes is the junk of earlier blocks
  have hnew : (v.c / 256 + b.toNat * 2 ^ 24) / 2 ^ (32 - 8 * (v.n + 1)) = leNat (m.pending ++ [b]) := by
    rw [happ, ← hc]
    have hcase : v.n = 0 ∨ v.n = 1 ∨ v.n = 2 ∨ v.n = 3 := by omega
    rcases hcase with h0 | h0 | h0 | h0 <;> rw [h0] <;> omega
  have hsum : v.c / 256 + b.toNat * 2 ^ 24 < 2 ^ 32 := by omega
  unfold doByte push
  rw [pushed_eq hc_lt, ← hn]
  by_cases hfull : v.n + 1 = 4
  · simp only [if_pos hfull]
    have hzero : 32 - 8 * (v.n + 1) = 0 := by omega
    rw [hzero, pow_zero, Nat.div_one] at hnew
    refine ⟨?_, rfl, Nat.zero_lt_succ 3, mixK_lt _, ?_⟩
    · show doBlock v.h1 _ = block m.state _
      rw [hnew, h.h1]
      rfl
    · show mixK _ >>> 32 = 0
      rw [Nat.shiftRight_eq_div_pow, Nat.div_eq_of_lt (mixK_lt _)]
  · simp only [if_neg hfull]
    refine ⟨h.h1, ?_, ?_, hsum, ?_⟩
    · show v.n + 1 = (m.pending ++ [b]).length
      rw [List.length_append, List.length_singleton, hn]
    · show v.n + 1 < 4
      omega
    · show _ >>> (32 - 8 * (v.n + 1)) = leNat (m.pending ++ [b])
      rw [Nat.shiftRight_eq_div_pow, hnew]

/-- `DOBYTES` keeps the invariant, for as many bytes as it is told. -/
theorem Carries.afterBytes {v : Locals} {m : Fed Nat UInt8} (h : Carries v m) (bs : Bytes) :
    Carries (doBytes v bs) (feed 4 block m bs) := by
  induction bs generalizing v m with
  | nil => exact h
  | cons b bs ih => exact ih (h.afterByte b)

/-! ## §3 — the words.

Four ways of going on, one for each number of bytes in the carry.  They are one statement with that
number as a parameter. -/

/-- A list of whole words. -/
theorem words_cases {key : Bytes} (hkey : key.length % 4 = 0) :
    key = [] ∨ ∃ b₀ b₁ b₂ b₃ rest, key = b₀ :: b₁ :: b₂ :: b₃ :: rest ∧ rest.length % 4 = 0 := by
  match key with
  | [] => exact .inl rfl
  | [_] => simp at hkey
  | [_, _] => simp at hkey
  | [_, _, _] => simp at hkey
  | b₀ :: b₁ :: b₂ :: b₃ :: rest =>
    refine .inr ⟨b₀, b₁, b₂, b₃, rest, rfl, ?_⟩
    simp only [List.length_cons] at hkey
    omega

/-- A turn of a loop over words. -/
theorem forWords_cons {σ : Type} (body : σ → Nat → σ) (s : σ) (b₀ b₁ b₂ b₃ : UInt8) (rest : Bytes) :
    forWords body s (b₀ :: b₁ :: b₂ :: b₃ :: rest) =
      forWords body (body s (leNat [b₀, b₁, b₂, b₃])) rest := by
  rw [forWords]

/-- Four bytes with nothing pending are a block. -/
theorem feed_word (h1 : Nat) (b₀ b₁ b₂ b₃ : UInt8) (rest : Bytes) :
    feed 4 block ⟨h1, []⟩ (b₀ :: b₁ :: b₂ :: b₃ :: rest) =
      feed 4 block ⟨doBlock h1 (leNat [b₀, b₁, b₂, b₃]), []⟩ rest := by
  have hone : feed 4 block ⟨h1, []⟩ [b₀, b₁, b₂, b₃] = ⟨block h1 [b₀, b₁, b₂, b₃], []⟩ :=
    feed_block (by decide) rfl
  rw [← block, ← hone, ← feed_append]
  rfl

/-- Words where nothing is pending. -/
theorem forWords_eq (h1 : Nat) {key : Bytes} (hkey : key.length % 4 = 0) :
    feed 4 block ⟨h1, []⟩ key = ⟨forWords doBlock h1 key, []⟩ := by
  induction hlen : key.length using Nat.strong_induction_on generalizing h1 key with
  | _ len ih =>
    rcases words_cases hkey with rfl | ⟨b₀, b₁, b₂, b₃, rest, rfl, hrest⟩
    · rfl
    · have hshorter : rest.length < len := by
        simp only [List.length_cons] at hlen
        omega
      rw [feed_word, forWords_cons]
      exact ih _ hshorter _ hrest rfl

/-- The lower bytes of a word come above what is there. -/
theorem or_shift_eq {low w k : Nat} (hk : k ≤ 32) (hlow : low < 2 ^ k) :
    low ||| (w <<< k % 2 ^ 32) = low + w % 2 ^ (32 - k) * 2 ^ k := by
  have hpow : (2 : Nat) ^ 32 = 2 ^ (32 - k) * 2 ^ k := by rw [← Nat.pow_add, Nat.sub_add_cancel hk]
  have hcut : w <<< k % 2 ^ 32 = (w % 2 ^ (32 - k)) <<< k := by
    rw [Nat.shiftLeft_eq, Nat.shiftLeft_eq, hpow, Nat.mul_mod_mul_right]
  rw [hcut, Nat.or_comm, ← Nat.shiftLeft_add_eq_or_of_lt hlow, Nat.shiftLeft_eq, Nat.add_comm]

/-- A block put together from the carry and the next word; the upper bytes of the word are carried
on. -/
theorem Carries.afterWord {v : Locals} {m : Fed Nat UInt8} (h : Carries v m) (hpos : v.n ≠ 0)
    (b₀ b₁ b₂ b₃ : UInt8) :
    Carries ⟨doBlock v.h1 ((v.c >>> (32 - 8 * v.n)) |||
        (leNat [b₀, b₁, b₂, b₃] <<< (8 * v.n) % 2 ^ 32)), leNat [b₀, b₁, b₂, b₃], v.n⟩
      (feed 4 block m [b₀, b₁, b₂, b₃]) := by
  have hlow := leNat_lt m.pending
  have h₀ := b₀.toNat_lt
  have h₁ := b₁.toNat_lt
  have h₂ := b₂.toNat_lt
  have h₃ := b₃.toNat_lt
  have hw : leNat [b₀, b₁, b₂, b₃] < 2 ^ 32 := by
    simp only [leNat]
    omega
  have hlt := h.lt
  have hn := h.n
  rw [← hn, show (256 : Nat) = 2 ^ 8 from rfl, ← Nat.pow_mul] at hlow
  -- the block is filled by the first bytes of the word, the others are kept
  rw [feed_over (by omega) (by simp only [List.length_cons, List.length_nil]; omega)
    (by simp only [List.length_cons, List.length_nil]; omega), h.c, or_shift_eq (by omega) hlow, h.h1]
  obtain ⟨s, pending⟩ := m
  match pending, hn with
  | [], hn => exact absurd hn hpos
  | [p], hn =>
    have hp := p.toNat_lt
    rw [hn]
    refine ⟨congrArg (doBlock s) ?_, rfl, Nat.lt_add_of_pos_left (by decide), hw, ?_⟩
    · show leNat [p] + leNat [b₀, b₁, b₂, b₃] % 2 ^ 24 * 2 ^ 8 = leNat [p, b₀, b₁, b₂]
      simp only [leNat]
      omega
    · show leNat [b₀, b₁, b₂, b₃] >>> 24 = leNat [b₃]
      rw [Nat.shiftRight_eq_div_pow]
      simp only [leNat]
      omega
  | [p, q], hn =>
    have hp := p.toNat_lt
    have hq := q.toNat_lt
    rw [hn]
    refine ⟨congrArg (doBlock s) ?_, rfl, Nat.lt_add_of_pos_left (by decide), hw, ?_⟩
    · show leNat [p, q] + leNat [b₀, b₁, b₂, b₃] % 2 ^ 16 * 2 ^ 16 = leNat [p, q, b₀, b₁]
      simp only [leNat]
      omega
    · show leNat [b₀, b₁, b₂, b₃] >>> 16 = leNat [b₂, b₃]
      rw [Nat.shiftRight_eq_div_pow]
      simp only [leNat]
      omega
  | [p, q, r], hn =>
    have hp := p.toNat_lt
    have hq := q.toNat_lt
    have hr := r.toNat_lt
    rw [hn]
    refine ⟨congrArg (doBlock s) ?_, rfl, Nat.lt_add_of_pos_left (by decide), hw, ?_⟩
    · show leNat [p, q, r] + leNat [b₀, b₁, b₂, b₃] % 2 ^ 8 * 2 ^ 24 = leNat [p, q, r, b₀]
      simp only [leNat]
      omega
    · show leNat [b₀, b₁, b₂, b₃] >>> 8 = leNat [b₁, b₂, b₃]
      rw [Nat.shiftRight_eq_div_pow]
      simp only [leNat]
      omega
  | p :: q :: r :: t :: pending, hn =>
    simp only [List.length_cons] at hn
    omega

/-- Words where something is. -/
theorem Carries.afterLoop {v : Locals} {m : Fed Nat UInt8} (h : Carries v m) (hpos : v.n ≠ 0)
    {key : Bytes} (hkey : key.length % 4 = 0) :
    Carries ⟨(forWords (carryBody v.n) (v.h1, v.c) key).1,
      (forWords (carryBody v.n) (v.h1, v.c) key).2, v.n⟩ (feed 4 block m key) := by
  induction hlen : key.length using Nat.strong_induction_on generalizing v m key with
  | _ len ih =>
    rcases words_cases hkey with rfl | ⟨b₀, b₁, b₂, b₃, rest, rfl, hrest⟩
    · exact h
    · have hshorter : rest.length < len := by
        simp only [List.length_cons] at hlen
        omega
      rw [forWords_cons, show b₀ :: b₁ :: b₂ :: b₃ :: rest = [b₀, b₁, b₂, b₃] ++ rest from rfl,
        feed_append]
      exact ih _ hshorter (h.afterWord hpos b₀ b₁ b₂ b₃) hpos hrest rfl

/-- The whole words, in both bodies.  The first one has come to the end of a block, or there are
none. -/
theorem Carries.afterWords {a : Access} {v : Locals} {m : Fed Nat UInt8} (h : Carries v m) {key : Bytes}
    (hkey : key.length % 4 = 0) (hnone : a = .unaligned → v.n = 0 ∨ key = []) :
    Carries (words a v key) (feed 4 block m key) := by
  have hzero : v.n = 0 → Carries { v with h1 := forWords doBlock v.h1 key } (feed 4 block m key) := by
    intro h0
    obtain ⟨s, pending⟩ := m
    obtain rfl : pending = [] := List.length_eq_zero_iff.mp (h.n.symm.trans h0)
    have hh1 := h.h1
    rw [forWords_eq s hkey]
    exact ⟨by rw [hh1], h0, h.lt, h.c_lt, h.c⟩
  cases a with
  | unaligned =>
    rcases hnone rfl with h0 | rfl
    · exact hzero h0
    · exact h
  | aligned ptr =>
    by_cases h0 : v.n = 0
    · simpa only [words, if_pos h0] using hzero h0
    · simpa only [words, if_neg h0] using h.afterLoop h0 hkey

/-! ## §4 — the function.

The end hashes what is in the carry and mixes the length in. -/

/-- What the caller keeps between two calls. -/
structure Kept (p : Nat × Nat) (m : Fed Nat UInt8) : Prop where
  h1 : p.1 = m.state
  n : p.2 &&& 3 = m.pending.length
  lt : m.pending.length < 4
  c_lt : p.2 < 2 ^ 32
  c : p.2 >>> (32 - 8 * m.pending.length) = leNat m.pending

/-- What the caller keeps is what the next call begins with: the number of bytes is in the lowest
bits. -/
theorem Kept.carries {p : Nat × Nat} {m : Fed Nat UInt8} (h : Kept p m) :
    Carries ⟨p.1, p.2, p.2 &&& 3⟩ m := by
  have hn := h.n
  refine ⟨h.h1, hn, ?_, h.c_lt, ?_⟩
  · show p.2 &&& 3 < 4
    rw [hn]
    exact h.lt
  · show p.2 >>> (32 - 8 * (p.2 &&& 3)) = _
    rw [hn]
    exact h.c

/-- The number of bytes goes into the lowest bits, in place of what is there. -/
theorem Carries.kept {v : Locals} {m : Fed Nat UInt8} (h : Carries v m) :
    Kept (v.h1, (v.c &&& 0xffffff00) ||| v.n) m := by
  have hlt := h.lt
  have hc := h.c
  have hc_lt := h.c_lt
  -- the mask takes the lowest byte off
  have hmask : v.c &&& 0xffffff00 = v.c / 256 * 256 := by
    have hsplit : v.c &&& 0xffffff00 = (v.c / 256) <<< 8 := by
      apply Nat.eq_of_testBit_eq
      intro i
      rw [Nat.testBit_and, Nat.testBit_shiftLeft, show (0xffffff00 : Nat) = (2 ^ 24 - 1) <<< 8 from rfl,
        Nat.testBit_shiftLeft, Nat.testBit_two_pow_sub_one, show (256 : Nat) = 2 ^ 8 from rfl,
        Nat.testBit_div_two_pow]
      by_cases hi : 8 ≤ i
      · rw [Nat.sub_add_cancel hi]
        by_cases h32 : i - 8 < 24
        · simp [hi, h32]
        · have hbit : v.c.testBit i = false :=
            Nat.testBit_lt_two_pow (Nat.lt_of_lt_of_le hc_lt (Nat.pow_le_pow_right (by decide) (by omega)))
          simp [hbit]
      · simp [hi]
    rw [hsplit, Nat.shiftLeft_eq]
  -- and the number is put in its place
  have hor : (v.c &&& 0xffffff00) ||| v.n = v.c / 256 * 256 + v.n := by
    rw [hmask, show v.c / 256 * 256 = (v.c / 256) <<< 8 by rw [Nat.shiftLeft_eq],
      ← Nat.shiftLeft_add_eq_or_of_lt (show v.n < 2 ^ 8 by omega)]
  refine ⟨h.h1, ?_, h.n ▸ hlt, ?_, ?_⟩
  · show ((v.c &&& 0xffffff00) ||| v.n) &&& 3 = _
    rw [hor, show (3 : Nat) = 2 ^ 2 - 1 from rfl, Nat.and_two_pow_sub_one_eq_mod, ← h.n]
    omega
  · show (v.c &&& 0xffffff00) ||| v.n < 2 ^ 32
    omega
  · show ((v.c &&& 0xffffff00) ||| v.n) >>> _ = _
    rw [hor, ← hc, ← h.n, Nat.shiftRight_eq_div_pow, Nat.shiftRight_eq_div_pow]
    -- by the number of pending bytes, each of which stands at another place
    obtain h0 | h0 | h0 | h0 : v.n = 0 ∨ v.n = 1 ∨ v.n = 2 ∨ v.n = 3 := by omega
    all_goals rw [h0]; omega

/-- **The carry is what is behind the whole blocks**, in both bodies and at every address.  The
pending bytes of a `Fed` machine and the carry word are related by `Kept` between calls and by
`Carries` inside one. -/
theorem process_carries (a : Access) {p : Nat × Nat} {m : Fed Nat UInt8} (h : Kept p m) (key : Bytes) :
    Kept (pMurHash32Process a p key) (feed 4 block m key) := by
  have hfirst := h.carries
  set v : Locals := ⟨p.1, p.2, p.2 &&& 3⟩
  set i := if firstBytes a v.n ≠ 0 ∧ firstBytes a v.n ≤ key.length then firstBytes a v.n else 0 with hi
  have hhead := hfirst.afterBytes (key.take i)
  have hwhole : ((key.drop i).take ((key.drop i).length / 4 * 4)).length % 4 = 0 := by
    rw [List.length_take]
    omega
  -- behind the first bytes of the first body a block ends, or there is no whole word
  have hnone : a = .unaligned → (doBytes v (key.take i)).n = 0 ∨
      (key.drop i).take ((key.drop i).length / 4 * 4) = [] := by
    intro ha
    have hn : (doBytes v (key.take i)).n = (v.n + (key.take i).length) % 4 := by
      rw [hhead.n, feed_pending_length h.lt, ← hfirst.n]
    have hv4 := hfirst.lt
    have hfb : firstBytes a v.n = (4 - v.n) % 4 := by
      rw [ha]
      exact Nat.and_two_pow_sub_one_eq_mod _ 2
    by_cases hle : firstBytes a v.n ≠ 0 ∧ firstBytes a v.n ≤ key.length
    · have hi' : i = (4 - v.n) % 4 := by rw [hi, if_pos hle, hfb]
      have hlen : (key.take i).length = (4 - v.n) % 4 := by
        rw [List.length_take, hi', ← hfb, Nat.min_eq_left hle.2]
      left
      rw [hn, hlen]
      omega
    · have hi' : i = 0 := by rw [hi, if_neg hle]
      by_cases h0 : firstBytes a v.n = 0
      · left
        rw [hn, hi', List.take_zero, List.length_nil]
        omega
      · right
        have hshort : key.length / 4 = 0 := by omega
        rw [hi', List.drop_zero, hshort, Nat.zero_mul, List.take_zero]
  have hwords := hhead.afterWords hwhole hnone
  have hend := (hwords.afterBytes ((key.drop i).drop ((key.drop i).length / 4 * 4))).kept
  rw [← feed_append, ← feed_append, List.take_append_drop, List.take_append_drop] at hend
  exact hend

/-- The end of a hash, from what is kept. -/
theorem pMurHash32Result_eq {p : Nat × Nat} {m : Fed Nat UInt8} (h : Kept p m) (totalLength : Nat) :
    pMurHash32Result p.1 p.2 totalLength =
      Schema.Slots.pMurHash32Result m.state m.pending totalLength := by
  have hn := h.n
  have hlt := h.lt
  have hc := h.c
  unfold pMurHash32Result Schema.Slots.pMurHash32Result
  rw [hn, h.h1]
  by_cases h0 : m.pending = []
  · simp [h0]
  · have hlen : m.pending.length ≠ 0 := fun hz => h0 (List.length_eq_zero_iff.mp hz)
    have hshift : (4 - m.pending.length) * 8 = 32 - 8 * m.pending.length := by omega
    simp only [if_pos hlen, hshift, hc, List.isEmpty_iff, if_neg h0]

/-- The hash of a key with a seed, from its blocks and the rest. -/
def murmur (seed : Nat) (key : Bytes) : Nat :=
  Schema.Slots.pMurHash32Result ((blocks 4 key).foldl block seed) (rest 4 key) key.length

/-- Before the first piece nothing is carried. -/
theorem kept_start (seed : Nat) : Kept (seed, 0) ⟨seed, []⟩ :=
  ⟨rfl, Nat.zero_and 3, Nat.zero_lt_succ 3, Nat.two_pow_pos 32, Nat.zero_shiftRight _⟩

/-- A run of calls, by induction on the pieces. -/
theorem pieces_kept (pieces : List (Access × Bytes)) {p : Nat × Nat} {m : Fed Nat UInt8}
    (h : Kept p m) :
    Kept (pieces.foldl (fun p piece => pMurHash32Process piece.1 p piece.2) p)
      (feed 4 block m (pieces.map Prod.snd).flatten) := by
  induction pieces generalizing p m with
  | nil => exact h
  | cons piece pieces ih =>
    rw [List.map_cons, List.flatten_cons, feed_append]
    exact ih (process_carries piece.1 h piece.2)

/-- **A key in pieces.**  Each piece may be at another address.  The caller passes the two numbers
on from call to call and looks at neither.  What is passed on is the hash of the whole blocks so far
and a carry of up to three bytes with their number in the low bits; `Carry` says so, and both bodies
keep it: the one that reads words at any address, and the one that reads bytes up to an aligned
address and puts every block together of two words. -/
theorem pMurHash32_pieces (seed : Nat) (pieces : List (Access × Bytes)) :
    let p := pieces.foldl (fun p piece => pMurHash32Process piece.1 p piece.2) (seed, 0)
    let key := (pieces.map Prod.snd).flatten
    pMurHash32Result p.1 p.2 key.length = murmur seed key := by
  intro p key
  have hend := pieces_kept pieces (kept_start seed)
  rw [feed_eq_blocks (by decide)] at hend
  exact pMurHash32Result_eq hend _

/-- The fold that the tables are modelled with. -/
theorem process_eq_blocks (h1 : Nat) (key : Bytes) :
    Schema.Slots.pMurHash32Process h1 key = ((blocks 4 key).foldl block h1, rest 4 key) := by
  have hfeed : ∀ (key : Bytes) (h1 : Nat), feed 4 block ⟨h1, []⟩ key =
      ⟨(Schema.Slots.pMurHash32Process h1 key).1, (Schema.Slots.pMurHash32Process h1 key).2⟩ := by
    intro key
    induction hlen : key.length using Nat.strong_induction_on generalizing key with
    | _ len ih =>
      intro h1
      match key with
      | [] => rfl
      | [_] => rfl
      | [_, _] => rfl
      | [_, _, _] => rfl
      | b₀ :: b₁ :: b₂ :: b₃ :: rest =>
        have hshorter : rest.length < len := by
          simp only [List.length_cons] at hlen
          omega
        rw [feed_word, Schema.Slots.pMurHash32Process.eq_def]
        exact ih _ hshorter rest rfl _
  have h := hfeed key h1
  rw [feed_eq_blocks (by decide)] at h
  obtain ⟨h1, h2⟩ := Fed.mk.inj h
  rw [h1, h2]

/-- **`mh_hash` is `PMurHash32` with the seed of the tables**, whichever body is compiled: a table
does not depend on the machine.  So the model of the tables, which has the hash as a function of a
key, is about the function that is compiled. -/
theorem pMurHash32_eq_mhHash (a : Access) (key : Bytes) : pMurHash32 a 13 key = mhHash key := by
  have hend := process_carries a (kept_start 13) key
  rw [feed_eq_blocks (by decide)] at hend
  show pMurHash32Result (pMurHash32Process a (13, 0) key).1 (pMurHash32Process a (13, 0) key).2 _ = _
  rw [pMurHash32Result_eq hend, mhHash, process_eq_blocks]

end TarantoolC.PMurHash
