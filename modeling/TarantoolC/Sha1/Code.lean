/-
# TarantoolC.Sha1.Code — `third_party/sha1.c`.

The code computes the standard's hash in another shape.  Its 80 rounds are unrolled, and not the
values but the NAMES of the five variables move on from round to round.  The 80 words of a block
never exist together: they are made in the 16 words of the block itself, each in the place of the
word 16 rounds older.  The message comes in pieces of any length, and the padding is fed to the same
function byte by byte.

`sha1Transform_eq` is the first half of the way to the standard, `Holds.update` the second, and
`sha1Final_spec` puts them together: whatever the cuts between the pieces, the digest is the
standard's.

How the code is modelled.  A use of a macro is a value (`Call`: which macro, which of the five names
stand in its argument places, and the round), and `unrolled` is the list of the 80 uses as they
stand in the source, group by group, so that a reader can compare it line by line.  `Call.exec` is
what a use does to the local variables: it is the only place where the macros `R0` to `R4` are given
meaning.  The block is a function from 16 places (`i & 15`) to words.

How it is proved.  `unrolled_eq` says that the list is regular: the macro of round `t` is a function
of `t`, and the names of round `t + 1` are those of round `t` moved on by one.  With that
`round_vars` is the effect of one round under the names of the next, and `Before` is the invariant
of the 80: the variables, read under the names of the round, are the standard's, and the ring of
words has the last 16 words of the schedule.

Data are lists of bytes, addresses are positions in them, and a store behind the 64 bytes of the
buffer is `none`.  The byte order of the machine is a parameter (`ByteOrder`), as it is for the
preprocessor.
-/
import TarantoolC.Buf
import TarantoolC.Sha1.Standard

namespace TarantoolC.Sha1

open MsgPack Blocks

/-! ## §1 — the code. -/

/-- `BYTE_ORDER`. -/
inductive ByteOrder where
  | little | big
  deriving Repr, DecidableEq

/-- Five words, under the names of the variables `a` … `e`. -/
inductive Reg where
  | a | b | c | d | e
  deriving Repr, DecidableEq

/-- The macros of the rounds. -/
inductive Op where
  | R0 | R1 | R2 | R3 | R4
  deriving Repr, DecidableEq

/-- One use of a macro. -/
structure Call where
  op : Op
  v : Reg
  w : Reg
  x : Reg
  y : Reg
  z : Reg
  i : Nat
  deriving Repr, DecidableEq

/-- The local variables of `SHA1Transform`: `a` … `e` and `block->l`. -/
structure Locals where
  reg : Reg → UInt32
  l : Fin 16 → UInt32

/-- `i & 15`. -/
def slot (i : Nat) : Fin 16 := ⟨i &&& 15, Nat.and_lt_two_pow i (show 15 < 2 ^ 4 by decide)⟩

/-- `rol`. -/
def rol (value bits : UInt32) : UInt32 := (value <<< bits) ||| (value >>> (32 - bits))

/-- Word `i` of 64 bytes, as the machine reads it. -/
def loadWord (o : ByteOrder) (c : Bytes) (i : Nat) : UInt32 :=
  let bs := (c.drop (4 * i)).take 4
  match o with
  | .little => UInt32.ofNat (beNat bs.reverse)
  | .big => UInt32.ofNat (beNat bs)

/-- `blk0(i)`: the value, and what is stored. -/
def blk0 (o : ByteOrder) (l : Fin 16 → UInt32) (i : Nat) : UInt32 × (Fin 16 → UInt32) :=
  match o with
  | .little =>
    let v := (rol (l (slot i)) 24 &&& 0xFF00FF00) ||| (rol (l (slot i)) 8 &&& 0x00FF00FF)
    (v, Function.update l (slot i) v)
  | .big => (l (slot i), l)

/-- `blk(i)`. -/
def blk (l : Fin 16 → UInt32) (i : Nat) : UInt32 × (Fin 16 → UInt32) :=
  let v := rol (l (slot (i + 13)) ^^^ l (slot (i + 8)) ^^^ l (slot (i + 2)) ^^^ l (slot i)) 1
  (v, Function.update l (slot i) v)

/-- The body that the macros share: `z += F + block word + K + rol(v, 5); w = rol(w, 30)`. -/
def round (m : Locals) (k : Call) (F K : UInt32) (word : UInt32 × (Fin 16 → UInt32)) : Locals :=
  let reg := Function.update m.reg k.z (m.reg k.z + (F + word.1 + K + rol (m.reg k.v) 5))
  ⟨Function.update reg k.w (rol (reg k.w) 30), word.2⟩

/-- `R0` … `R4`. -/
def Call.exec (o : ByteOrder) (m : Locals) (k : Call) : Locals :=
  let w := m.reg k.w
  let x := m.reg k.x
  let y := m.reg k.y
  match k.op with
  | .R0 => round m k ((w &&& (x ^^^ y)) ^^^ y) 0x5A827999 (blk0 o m.l k.i)
  | .R1 => round m k ((w &&& (x ^^^ y)) ^^^ y) 0x5A827999 (blk m.l k.i)
  | .R2 => round m k (w ^^^ x ^^^ y) 0x6ED9EBA1 (blk m.l k.i)
  | .R3 => round m k (((w ||| x) &&& y) ||| (w &&& x)) 0x8F1BBCDC (blk m.l k.i)
  | .R4 => round m k (w ^^^ x ^^^ y) 0xCA62C1D6 (blk m.l k.i)

section

open Reg Op

/-- The 4 rounds of 20 operations each, unrolled. -/
def unrolled : List Call := [
  ⟨R0,a,b,c,d,e,0⟩, ⟨R0,e,a,b,c,d,1⟩, ⟨R0,d,e,a,b,c,2⟩, ⟨R0,c,d,e,a,b,3⟩,
  ⟨R0,b,c,d,e,a,4⟩, ⟨R0,a,b,c,d,e,5⟩, ⟨R0,e,a,b,c,d,6⟩, ⟨R0,d,e,a,b,c,7⟩,
  ⟨R0,c,d,e,a,b,8⟩, ⟨R0,b,c,d,e,a,9⟩, ⟨R0,a,b,c,d,e,10⟩, ⟨R0,e,a,b,c,d,11⟩,
  ⟨R0,d,e,a,b,c,12⟩, ⟨R0,c,d,e,a,b,13⟩, ⟨R0,b,c,d,e,a,14⟩, ⟨R0,a,b,c,d,e,15⟩,
  ⟨R1,e,a,b,c,d,16⟩, ⟨R1,d,e,a,b,c,17⟩, ⟨R1,c,d,e,a,b,18⟩, ⟨R1,b,c,d,e,a,19⟩,
  ⟨R2,a,b,c,d,e,20⟩, ⟨R2,e,a,b,c,d,21⟩, ⟨R2,d,e,a,b,c,22⟩, ⟨R2,c,d,e,a,b,23⟩,
  ⟨R2,b,c,d,e,a,24⟩, ⟨R2,a,b,c,d,e,25⟩, ⟨R2,e,a,b,c,d,26⟩, ⟨R2,d,e,a,b,c,27⟩,
  ⟨R2,c,d,e,a,b,28⟩, ⟨R2,b,c,d,e,a,29⟩, ⟨R2,a,b,c,d,e,30⟩, ⟨R2,e,a,b,c,d,31⟩,
  ⟨R2,d,e,a,b,c,32⟩, ⟨R2,c,d,e,a,b,33⟩, ⟨R2,b,c,d,e,a,34⟩, ⟨R2,a,b,c,d,e,35⟩,
  ⟨R2,e,a,b,c,d,36⟩, ⟨R2,d,e,a,b,c,37⟩, ⟨R2,c,d,e,a,b,38⟩, ⟨R2,b,c,d,e,a,39⟩,
  ⟨R3,a,b,c,d,e,40⟩, ⟨R3,e,a,b,c,d,41⟩, ⟨R3,d,e,a,b,c,42⟩, ⟨R3,c,d,e,a,b,43⟩,
  ⟨R3,b,c,d,e,a,44⟩, ⟨R3,a,b,c,d,e,45⟩, ⟨R3,e,a,b,c,d,46⟩, ⟨R3,d,e,a,b,c,47⟩,
  ⟨R3,c,d,e,a,b,48⟩, ⟨R3,b,c,d,e,a,49⟩, ⟨R3,a,b,c,d,e,50⟩, ⟨R3,e,a,b,c,d,51⟩,
  ⟨R3,d,e,a,b,c,52⟩, ⟨R3,c,d,e,a,b,53⟩, ⟨R3,b,c,d,e,a,54⟩, ⟨R3,a,b,c,d,e,55⟩,
  ⟨R3,e,a,b,c,d,56⟩, ⟨R3,d,e,a,b,c,57⟩, ⟨R3,c,d,e,a,b,58⟩, ⟨R3,b,c,d,e,a,59⟩,
  ⟨R4,a,b,c,d,e,60⟩, ⟨R4,e,a,b,c,d,61⟩, ⟨R4,d,e,a,b,c,62⟩, ⟨R4,c,d,e,a,b,63⟩,
  ⟨R4,b,c,d,e,a,64⟩, ⟨R4,a,b,c,d,e,65⟩, ⟨R4,e,a,b,c,d,66⟩, ⟨R4,d,e,a,b,c,67⟩,
  ⟨R4,c,d,e,a,b,68⟩, ⟨R4,b,c,d,e,a,69⟩, ⟨R4,a,b,c,d,e,70⟩, ⟨R4,e,a,b,c,d,71⟩,
  ⟨R4,d,e,a,b,c,72⟩, ⟨R4,c,d,e,a,b,73⟩, ⟨R4,b,c,d,e,a,74⟩, ⟨R4,a,b,c,d,e,75⟩,
  ⟨R4,e,a,b,c,d,76⟩, ⟨R4,d,e,a,b,c,77⟩, ⟨R4,c,d,e,a,b,78⟩, ⟨R4,b,c,d,e,a,79⟩]

end

/-- `state[0]` … `state[4]` as the working variables. -/
def Chain.regs (h : Chain) : Reg → UInt32
  | .a => h.a
  | .b => h.b
  | .c => h.c
  | .d => h.d
  | .e => h.e

/-- `SHA1Transform`, for a buffer of 64 bytes. -/
def sha1Transform (o : ByteOrder) (state : Chain) (buffer : Bytes) : Chain :=
  let m := unrolled.foldl (Call.exec o) ⟨state.regs, fun i => loadWord o buffer i⟩
  ⟨state.a + m.reg .a, state.b + m.reg .b, state.c + m.reg .c, state.d + m.reg .d,
    state.e + m.reg .e⟩

/-- `unsigned char buffer[64]`. -/
abbrev Buffer := { bs : Bytes // bs.length = 64 }

/-- `SHA1_CTX`.  The counts are `uint32_t`. -/
structure Sha1Ctx where
  state : Chain
  count0 : Nat
  count1 : Nat
  buffer : Buffer

/-- `SHA1Init`.  What is in the buffer stays. -/
def sha1Init (buffer : Buffer) : Sha1Ctx := ⟨initial, 0, 0, buffer⟩

/-- `memcpy(&buffer[j], src, |src|)`; `none` behind the buffer. -/
def store (buffer : Buffer) (j : Nat) (src : Bytes) : Option Buffer :=
  if h : j + src.length ≤ 64 then
    some ⟨overwrite buffer.val j src, by
      rw [overwrite_length (by rw [buffer.property]; exact h), buffer.property]⟩
  else none

/-- `for ( ; i + 63 < len; i += 64) SHA1Transform(state, &data[i])`. -/
def transformLoop (o : ByteOrder) (data : Bytes) : Nat → Nat → Chain → Chain × Nat
  | 0, i, state => (state, i)
  | fuel + 1, i, state =>
    if (i + 63) % 2 ^ 32 < data.length then
      transformLoop o data fuel (i + 64) (sha1Transform o state ((data.drop i).take 64))
    else (state, i)

/-- `SHA1Update`; `len` is the length of the data. -/
def sha1Update (o : ByteOrder) (context : Sha1Ctx) (data : Bytes) : Option Sha1Ctx := do
  let len := data.length
  let j := context.count0
  let count0 := (context.count0 + len * 8 % 2 ^ 32) % 2 ^ 32
  let count1 := if count0 < j then (context.count1 + 1) % 2 ^ 32 else context.count1
  let count1 := (count1 + (len >>> 29)) % 2 ^ 32
  let j := (j >>> 3) &&& 63
  if 63 < (j + len) % 2 ^ 32 then do
    let buffer ← store context.buffer j (data.take (64 - j))
    let state := sha1Transform o context.state buffer.val
    let (state, i) := transformLoop o data len (64 - j) state
    let buffer ← store buffer 0 (data.drop i)
    some ⟨state, count0, count1, buffer⟩
  else do
    let buffer ← store context.buffer j data
    some ⟨context.state, count0, count1, buffer⟩

/-- `(unsigned char) ((w >> ((3-(i & 3)) * 8)) & 255)`. -/
def byteOf (w i : Nat) : UInt8 := UInt8.ofNat ((w >>> ((3 - (i &&& 3)) * 8)) &&& 255)

/-- `while ((context->count[0] & 504) != 448) { c = 0000; SHA1Update(context, &c, 1); }`; `none` if
there is no end. -/
def padLoop (o : ByteOrder) : Nat → Sha1Ctx → Option Sha1Ctx
  | 0, _ => none
  | fuel + 1, context =>
    if context.count0 &&& 504 = 448 then some context
    else do
      let context ← sha1Update o context [0]
      padLoop o fuel context

/-- `context->state[i]`. -/
def Chain.get (h : Chain) : Nat → UInt32
  | 0 => h.a
  | 1 => h.b
  | 2 => h.c
  | 3 => h.d
  | _ => h.e

/-- `SHA1Final`: the digest. -/
def sha1Final (o : ByteOrder) (context : Sha1Ctx) : Option Bytes := do
  let finalcount := (List.range 8).map fun i =>
    byteOf (if 4 ≤ i then context.count0 else context.count1) i
  let context ← sha1Update o context [0x80]
  let context ← padLoop o 65 context
  let context ← sha1Update o context finalcount
  return (List.range 20).map fun i => byteOf (context.state.get (i >>> 2)).toNat i

/-! ## §2 — the macros.

What one use of a macro does to five variables and the ring of words. -/

/-- The choice of `R0` and `R1`, with one operation less. -/
theorem ch_eq (w x y : UInt32) : (w &&& (x ^^^ y)) ^^^ y = ch w x y := by
  rw [ch]
  apply UInt32.toBitVec_inj.mp
  ext i hi
  simp only [UInt32.toBitVec_xor, UInt32.toBitVec_and, UInt32.toBitVec_not, BitVec.getElem_xor,
    BitVec.getElem_and, BitVec.getElem_not]
  cases w.toBitVec[i] <;> cases x.toBitVec[i] <;> cases y.toBitVec[i] <;> rfl

/-- The majority of `R3`. -/
theorem maj_eq (w x y : UInt32) : ((w ||| x) &&& y) ||| (w &&& x) = maj w x y := by
  rw [maj]
  apply UInt32.toBitVec_inj.mp
  ext i hi
  simp only [UInt32.toBitVec_xor, UInt32.toBitVec_and, UInt32.toBitVec_or, BitVec.getElem_xor,
    BitVec.getElem_and, BitVec.getElem_or]
  cases w.toBitVec[i] <;> cases x.toBitVec[i] <;> cases y.toBitVec[i] <;> rfl

/-- Four bytes as a word, in big-endian order, are their bits one after the other. -/
theorem ofNat_beNat_four (b₀ b₁ b₂ b₃ : UInt8) :
    (UInt32.ofNat (beNat [b₀, b₁, b₂, b₃])).toBitVec =
      (b₀.toBitVec ++ b₁.toBitVec ++ b₂.toBitVec ++ b₃.toBitVec : BitVec (8 + 8 + 8 + 8)) := by
  have h₀ := b₀.toNat_lt
  have h₁ := b₁.toNat_lt
  have h₂ := b₂.toNat_lt
  have h₃ := b₃.toNat_lt
  apply BitVec.eq_of_toNat_eq
  rw [BitVec.toNat_append, BitVec.toNat_append, BitVec.toNat_append]
  simp only [UInt8.toNat_toBitVec, UInt32.toBitVec_ofNat', BitVec.toNat_ofNat]
  rw [← Nat.shiftLeft_add_eq_or_of_lt h₁, ← Nat.shiftLeft_add_eq_or_of_lt h₂,
    ← Nat.shiftLeft_add_eq_or_of_lt h₃]
  simp only [beNat, Nat.shiftLeft_eq, List.length_cons, List.length_nil, Nat.reduceAdd,
    Nat.reducePow]
  omega

/-- The bits of a word of four bytes. -/
theorem getLsbD_four (b₀ b₁ b₂ b₃ : UInt8) (i : Nat) :
    (UInt32.ofNat (beNat [b₀, b₁, b₂, b₃])).toBitVec.getLsbD i =
      if i < 8 then b₃.toBitVec.getLsbD i else if i - 8 < 8 then b₂.toBitVec.getLsbD (i - 8)
      else if i - 8 - 8 < 8 then b₁.toBitVec.getLsbD (i - 8 - 8)
      else b₀.toBitVec.getLsbD (i - 8 - 8 - 8) := by
  rw [ofNat_beNat_four, BitVec.getLsbD_append, BitVec.getLsbD_append, BitVec.getLsbD_append]

/-- `blk0` on a little-endian machine turns the bytes of a word around. -/
theorem swap_eq (b₀ b₁ b₂ b₃ : UInt8) :
    (rol (UInt32.ofNat (beNat [b₃, b₂, b₁, b₀])) 24 &&& 0xFF00FF00) |||
      (rol (UInt32.ofNat (beNat [b₃, b₂, b₁, b₀])) 8 &&& 0x00FF00FF) =
    UInt32.ofNat (beNat [b₀, b₁, b₂, b₃]) := by
  apply UInt32.toBitVec_inj.mp
  simp only [rol, UInt32.toBitVec_or, UInt32.toBitVec_and, UInt32.toBitVec_shiftLeft,
    UInt32.toBitVec_shiftRight]
  apply BitVec.eq_of_getLsbD_eq
  intro i hi
  simp only [BitVec.getLsbD_or, BitVec.getLsbD_and, BitVec.shiftLeft_eq', BitVec.ushiftRight_eq',
    BitVec.getLsbD_shiftLeft, BitVec.getLsbD_ushiftRight, getLsbD_four]
  -- bit by bit, every condition is one of numbers
  interval_cases i <;> simp

/-- The ring has 16 places. -/
theorem slot_eq_iff {i j : Nat} : slot i = slot j ↔ i % 16 = j % 16 := by
  have hmod (n : Nat) : n &&& 15 = n % 16 := Nat.and_two_pow_sub_one_eq_mod n 4
  rw [slot, slot, Fin.mk.injEq, hmod, hmod]

/-- The first 16 rounds stand in their own places. -/
theorem slot_val {i : Nat} (h : i < 16) : (slot i).val = i := by
  show i &&& 15 = i
  rw [show i &&& 15 = i % 16 from Nat.and_two_pow_sub_one_eq_mod i 4, Nat.mod_eq_of_lt h]

/-! ## §3 — one round.

The names move on by one, the values by one the other way. -/

/-- The macro of round `t`. -/
def opAt (t : Nat) : Op :=
  if t < 16 then .R0 else if t < 20 then .R1 else if t < 40 then .R2 else if t < 60 then .R3 else .R4

/-- The macro of round `t` with its arguments: the names move on by one. -/
def callAt (t : Nat) : Call :=
  match t % 5 with
  | 0 => ⟨opAt t, .a, .b, .c, .d, .e, t⟩
  | 1 => ⟨opAt t, .e, .a, .b, .c, .d, t⟩
  | 2 => ⟨opAt t, .d, .e, .a, .b, .c, t⟩
  | 3 => ⟨opAt t, .c, .d, .e, .a, .b, t⟩
  | _ => ⟨opAt t, .b, .c, .d, .e, .a, t⟩

/-- **The unrolled rounds are regular**: 80 uses, each made from its number.  It is the one place
where the 80 lines of the source are looked at. -/
theorem unrolled_eq : unrolled = (List.range 80).map callAt := by decide

/-- The parts of a use: its macro, ... -/
theorem callAt_op (t : Nat) : (callAt t).op = opAt t := by
  unfold callAt
  split <;> rfl

/-- ... its round, ... -/
theorem callAt_i (t : Nat) : (callAt t).i = t := by
  unfold callAt
  split <;> rfl

/-- The names are different. -/
def Call.Distinct (k : Call) : Prop := [k.v, k.w, k.x, k.y, k.z].Nodup

/-- ... five names, no two the same, ... -/
theorem callAt_distinct (t : Nat) : (callAt t).Distinct := by
  unfold callAt
  split <;> simp [Call.Distinct]

/-- `k'` has the names of `k`, moved on by one. -/
structure Call.Follows (k k' : Call) : Prop where
  v : k'.v = k.z
  w : k'.w = k.v
  x : k'.x = k.w
  y : k'.y = k.x
  z : k'.z = k.y

/-- ... and those of the next use are the same ones moved on. -/
theorem callAt_follows (t : Nat) : (callAt t).Follows (callAt (t + 1)) := by
  have hcase : t % 5 = 0 ∧ (t + 1) % 5 = 1 ∨ t % 5 = 1 ∧ (t + 1) % 5 = 2 ∨
      t % 5 = 2 ∧ (t + 1) % 5 = 3 ∨ t % 5 = 3 ∧ (t + 1) % 5 = 4 ∨ t % 5 = 4 ∧ (t + 1) % 5 = 0 := by
    omega
  unfold callAt
  rcases hcase with ⟨h, h'⟩ | ⟨h, h'⟩ | ⟨h, h'⟩ | ⟨h, h'⟩ | ⟨h, h'⟩ <;> rw [h, h'] <;>
    exact ⟨rfl, rfl, rfl, rfl, rfl⟩

/-- The variables under the names of a call. -/
def Call.vars (k : Call) (m : Locals) : Chain := ⟨m.reg k.v, m.reg k.w, m.reg k.x, m.reg k.y, m.reg k.z⟩

/-- **What a round does**, under the names of the next one. -/
theorem round_vars {k k' : Call} (hk : k.Distinct) (hk' : k.Follows k') (m : Locals) (F K : UInt32)
    (word : UInt32 × (Fin 16 → UInt32)) :
    k'.vars (round m k F K word) =
      ⟨(k.vars m).e + (F + word.1 + K + rol (k.vars m).a 5), (k.vars m).a, rol (k.vars m).b 30,
        (k.vars m).c, (k.vars m).d⟩ := by
  simp only [Call.Distinct, List.nodup_cons, List.mem_cons, List.not_mem_nil, or_false, not_or,
    List.nodup_nil, and_true, not_false_eq_true] at hk
  obtain ⟨⟨hvw, hvx, hvy, hvz⟩, ⟨hwx, hwy, hwz⟩, ⟨hxy, hxz⟩, hyz⟩ := hk
  simp only [Call.vars, round, hk'.v, hk'.w, hk'.x, hk'.y, hk'.z, Function.update_apply]
  simp only [if_neg hvw, if_neg hvz, if_neg hwz, if_neg hxz, if_neg hyz, if_neg (Ne.symm hwz),
    if_neg (Ne.symm hwx), if_neg (Ne.symm hwy), if_true]

/-- The body that round `t` comes to, with the standard's function and constant. -/
theorem exec_eq (o : ByteOrder) (m : Locals) (t : Nat) :
    (callAt t).exec o m = round m (callAt t)
      (function t (m.reg (callAt t).w) (m.reg (callAt t).x) (m.reg (callAt t).y)) (constant t)
      (if t < 16 then blk0 o m.l t else blk m.l t) := by
  unfold Call.exec
  rw [callAt_op, callAt_i, opAt, function, constant]
  by_cases h16 : t < 16
  · simp only [if_pos h16, if_pos (show t < 20 by omega), ch_eq]
  by_cases h20 : t < 20
  · simp only [if_neg h16, if_pos h20, ch_eq]
  by_cases h40 : t < 40
  · simp only [if_neg h16, if_neg h20, if_pos h40, parity]
  by_cases h60 : t < 60
  · simp only [if_neg h16, if_neg h20, if_neg h40, if_pos h60, maj_eq]
  · simp only [if_neg h16, if_neg h20, if_neg h40, if_neg h60, parity]

/-! ## §4 — the 80 rounds.

By induction on the round.  That the list of the source is the regular one is checked by evaluation. -/

section Rounds

variable {o : ByteOrder} {block : Bytes} {h : Chain}

/-- Before round `t`: the variables are the standard's, under the names of the round; of the words,
the last 16 that were made are there, and behind them those of the block that were not touched. -/
structure Before (o : ByteOrder) (block : Bytes) (h : Chain) (t : Nat) (m : Locals) : Prop where
  vars : (callAt t).vars m = rounds block h t
  made : ∀ j < t, t ≤ j + 16 → m.l (slot j) = schedule block j
  loaded : ∀ j, t ≤ j → j < 16 → m.l (slot j) = loadWord o block j

/-- The word that round `t` makes, and where it leaves it. -/
theorem Before.word {t : Nat} {m : Locals} (hm : Before o block h t m) (hlen : block.length = 64) :
    (if t < 16 then blk0 o m.l t else blk m.l t).1 = schedule block t ∧
      ∀ s, (if t < 16 then blk0 o m.l t else blk m.l t).2 s =
        if s = slot t then schedule block t else m.l s := by
  by_cases ht : t < 16
  · simp only [if_pos ht]
    have hload := hm.loaded t le_rfl ht
    have hfour : ((block.drop (4 * t)).take 4).length = 4 := by
      rw [List.length_take, List.length_drop]
      omega
    obtain ⟨b₀, b₁, b₂, b₃, hbytes⟩ := List.length_eq_four.mp hfour
    have hword : schedule block t = UInt32.ofNat (beNat [b₀, b₁, b₂, b₃]) := by
      rw [schedule_of_lt block ht, Sha1.word, hbytes]
    cases o with
    | little =>
      have hl : m.l (slot t) = UInt32.ofNat (beNat [b₃, b₂, b₁, b₀]) := by
        rw [hload, loadWord, hbytes]
        rfl
      have hv : (blk0 .little m.l t).1 = schedule block t := by
        rw [hword, ← swap_eq b₀ b₁ b₂ b₃, ← hl]
        rfl
      refine ⟨hv, fun s => ?_⟩
      rw [← hv]
      exact Function.update_apply _ _ _ _
    | big =>
      have hl : m.l (slot t) = schedule block t := by
        rw [hload, hword, loadWord, hbytes]
      refine ⟨hl, fun s => ?_⟩
      by_cases hs : s = slot t
      · rw [if_pos hs, hs]
        exact hl
      · rw [if_neg hs]
        rfl
  · simp only [if_neg ht]
    -- the four words are those of 3, 8, 14 and 16 rounds before
    have hago (d : Nat) (k : Nat) (hd : d ≤ 16) (hd0 : 0 < d) (hk : k + d = 16) :
        m.l (slot (t + k)) = schedule block (t - d) := by
      have hslot : slot (t + k) = slot (t - d) := slot_eq_iff.mpr (by omega)
      rw [hslot]
      exact hm.made (t - d) (by omega) (by omega)
    have hv : (blk m.l t).1 = schedule block t := by
      rw [schedule_of_ge block (by omega), ← hago 3 13 (by omega) (by omega) rfl,
        ← hago 8 8 (by omega) (by omega) rfl, ← hago 14 2 (by omega) (by omega) rfl,
        ← hago 16 0 (by omega) (by omega) rfl]
      rfl
    refine ⟨hv, fun s => ?_⟩
    rw [← hv]
    exact Function.update_apply _ _ _ _

/-- One round. -/
theorem Before.step {t : Nat} {m : Locals} (hm : Before o block h t m) (hlen : block.length = 64) :
    Before o block h (t + 1) ((callAt t).exec o m) := by
  obtain ⟨hword, hl⟩ := hm.word hlen
  have hvars := hm.vars
  rw [exec_eq]
  set word := if t < 16 then blk0 o m.l t else blk m.l t
  refine ⟨?_, ?_, ?_⟩
  · rw [round_vars (callAt_distinct t) (callAt_follows t), rounds_succ, ← hvars, hword]
    -- the summands are the standard's in another order
    simp only [Sha1.step, Call.vars, Chain.mk.injEq, and_true]
    refine ⟨?_, trivial, rfl⟩
    show _ = rol (m.reg (callAt t).v) 5 + _ + _ + _ + _
    ac_rfl
  · intro j hj hnear
    show word.2 (slot j) = _
    rw [hl]
    by_cases hjt : j = t
    · rw [hjt, if_pos rfl]
    · rw [if_neg (fun hs => by have := slot_eq_iff.mp hs; omega)]
      exact hm.made j (by omega) (by omega)
  · intro j hj hj16
    show word.2 (slot j) = _
    rw [hl, if_neg (fun hs => by have := slot_eq_iff.mp hs; omega)]
    exact hm.loaded j (by omega) hj16

/-- **The invariant of the 80 rounds**, by induction on the number of rounds.  The words of the
schedule are made on the way, each before it is used and after the one in its place was used last.
-/
theorem before_rounds (hlen : block.length = 64) (t : Nat) :
    Before o block h t (((List.range t).map callAt).foldl (Call.exec o)
      ⟨h.regs, fun i => loadWord o block i⟩) := by
  induction t with
  | zero =>
    refine ⟨rfl, fun j hj => absurd hj (Nat.not_lt_zero j), fun j _ hj => ?_⟩
    show loadWord o block (slot j).val = loadWord o block j
    rw [slot_val hj]
  | succ t ih =>
    rw [List.range_succ, List.map_append, List.foldl_append]
    exact ih.step hlen

/-- **`SHA1Transform` is the standard's round function**, on machines of both byte orders. -/
theorem sha1Transform_eq (o : ByteOrder) (h : Chain) (hlen : block.length = 64) :
    sha1Transform o h block = compress h block := by
  have hend := (@before_rounds o block h hlen 80).vars
  rw [← unrolled_eq] at hend
  rw [compress, ← hend]
  rfl

end Rounds

end TarantoolC.Sha1
