/-
# TarantoolC.Sha1.Stream — SHA-1 in pieces.

A context between two calls of `SHA1Update` is described by the bytes it has been fed (`Holds`): its
state is the hash of their whole blocks, the front of its buffer is what is behind these, and its
two counts are one number of bits.

`sha1Update` adds a piece (`Holds.update`), whatever is left in the buffer from earlier blocks; the
padding of `SHA1Final` is such pieces as well.

The invariant leaves open what stands in the buffer behind the pending bytes: it is whatever an
earlier block left there, and `SHA1Init` does not clear it.  The counts are two words of 32 bits
that together say the number of bits, so a carry from one to the other is part of `Holds.update`.

`SHA1Update` computes `i + 63 < len` in 32 bits.  From `2 ^ 32 - 63` bytes on this wraps around, and
the loop would read on behind the data; pieces are shorter than that in `sha1_pieces`, and their
number and the total length are not bounded (the number of bits is taken modulo `2 ^ 64`, as the
standard's padding has it for messages it is defined for).
-/
import TarantoolC.Sha1.Code

namespace TarantoolC.Sha1

open MsgPack Blocks

/-! ## §1 — a piece.

It fills the buffer at hand, goes over whole blocks where they lie, and leaves the rest in the
buffer: the three lemmas of `TarantoolC.Blocks`, one behind the other. -/

/-- The context has been fed with `xs`. -/
structure Holds (context : Sha1Ctx) (xs : Bytes) : Prop where
  fed : feed 64 compress ⟨initial, []⟩ xs =
    ⟨context.state, context.buffer.val.take (xs.length % 64)⟩
  count0 : context.count0 = 8 * xs.length % 2 ^ 32
  count1 : context.count1 = 8 * xs.length / 2 ^ 32 % 2 ^ 32

/-- A context that has been initialised has been fed with nothing. -/
theorem holds_init (buffer : Buffer) : Holds (sha1Init buffer) [] := ⟨rfl, rfl, rfl⟩

/-- A copy into the buffer that stays inside it. -/
theorem store_eq {buffer : Buffer} {j : Nat} {src : Bytes} (h : j + src.length ≤ 64) :
    ∃ buffer', store buffer j src = some buffer' ∧
      buffer'.val.take (j + src.length) = buffer.val.take j ++ src := by
  refine ⟨_, dif_pos h, ?_⟩
  exact take_overwrite (by rw [buffer.property]; exact h)

/-- The loop goes over the whole blocks. -/
theorem transformLoop_spec (o : ByteOrder) {data : Bytes} (hlen : data.length + 63 < 2 ^ 32)
    {fuel i : Nat} (hi : i ≤ data.length) (hfuel : data.length ≤ i + 63 + 64 * fuel)
    (state : Chain) :
    ∃ state' i', transformLoop o data fuel i state = (state', i') ∧
      (data.drop i').length < 64 ∧
      feed 64 compress ⟨state, []⟩ (data.drop i) = ⟨state', data.drop i'⟩ := by
  -- the loop ends when less than a block is left, and then the standard feeds no block either
  have hstop : ∀ (i : Nat) (state : Chain), data.length ≤ i + 63 → (data.drop i).length < 64 ∧
      feed 64 compress ⟨state, []⟩ (data.drop i) = ⟨state, data.drop i⟩ := by
    intro i state hle
    have hshort : (data.drop i).length < 64 := by rw [List.length_drop]; omega
    exact ⟨hshort, feed_short (by simpa using hshort)⟩
  induction fuel generalizing i state with
  | zero => exact ⟨state, i, rfl, hstop i state (by omega)⟩
  | succ fuel ih =>
    -- the index is a 32-bit number in C; the length given keeps `i + 63` below the wrap
    have hwrap : (i + 63) % 2 ^ 32 = i + 63 := Nat.mod_eq_of_lt (by omega)
    rw [transformLoop, hwrap]
    by_cases hmore : i + 63 < data.length
    · rw [if_pos hmore]
      have hblock : ((data.drop i).take 64).length = 64 := by
        rw [List.length_take, List.length_drop]
        omega
      obtain ⟨state', i', hloop, hshort, hfeed⟩ := @ih (i + 64) (by omega) (by omega)
        (sha1Transform o state ((data.drop i).take 64))
      refine ⟨state', i', hloop, hshort, ?_⟩
      -- what is still to come is this block followed by what the next turn starts from
      have hcut : data.drop i = (data.drop i).take 64 ++ data.drop (i + 64) := by
        rw [← List.drop_drop, List.take_append_drop]
      rw [hcut, feed_append, feed_block (by decide) hblock, ← sha1Transform_eq o state hblock]
      exact hfeed
    · rw [if_neg hmore]
      exact ⟨state, i, rfl, hstop i state (by omega)⟩

/-- The two counts of a context are one number of bits, of which each has 32.  The function adds to
the low one and carries into the high one. -/
theorem Holds.counts {context : Sha1Ctx} {xs : Bytes} (h : Holds context xs) (data : Bytes) :
    let count0 := (context.count0 + data.length * 8 % 2 ^ 32) % 2 ^ 32
    count0 = 8 * (xs ++ data).length % 2 ^ 32 ∧
      ((if count0 < context.count0 then (context.count1 + 1) % 2 ^ 32 else context.count1) +
        (data.length >>> 29)) % 2 ^ 32 = 8 * (xs ++ data).length / 2 ^ 32 % 2 ^ 32 := by
  intro count0
  have hcount0 := h.count0
  have hcount1 := h.count1
  have htotal : (xs ++ data).length = xs.length + data.length := List.length_append
  have hlow : count0 = (context.count0 + data.length * 8 % 2 ^ 32) % 2 ^ 32 := rfl
  rw [htotal, Nat.shiftRight_eq_div_pow]
  constructor
  · omega
  · split_ifs with hcarry <;> omega

/-- **`SHA1Update`**, for data whose length leaves room for 63 more in 32 bits.  The three parts of
the function are the three lemmas about feeding. -/
theorem Holds.update (o : ByteOrder) {context : Sha1Ctx} {xs : Bytes} (h : Holds context xs)
    {data : Bytes} (hlen : data.length + 63 < 2 ^ 32) :
    ∃ context', sha1Update o context data = some context' ∧ Holds context' (xs ++ data) := by
  have hfed := h.fed
  have hcount0 := h.count0
  have hj : (context.count0 >>> 3) &&& 63 = xs.length % 64 := by
    rw [hcount0, Nat.shiftRight_eq_div_pow,
      show (63 : Nat) = 2 ^ 6 - 1 from rfl, Nat.and_two_pow_sub_one_eq_mod]
    omega
  have htotal : (xs ++ data).length = xs.length + data.length := List.length_append
  have hpend : ((context.buffer.val).take (xs.length % 64)).length = xs.length % 64 := by
    rw [List.length_take, context.buffer.property]
    omega
  obtain ⟨hnew0, hnew1⟩ := h.counts data
  set count0 := (context.count0 + data.length * 8 % 2 ^ 32) % 2 ^ 32 with hc0
  set count1 := ((if count0 < context.count0 then (context.count1 + 1) % 2 ^ 32
    else context.count1) + (data.length >>> 29)) % 2 ^ 32 with hc1
  unfold sha1Update
  simp only [hj, ← hc0, ← hc1, Nat.mod_eq_of_lt (show xs.length % 64 + data.length < 2 ^ 32 by omega)]
  by_cases hfull : 63 < xs.length % 64 + data.length
  · simp only [if_pos hfull]
    -- the block at hand is filled up, the whole blocks are gone over, the rest is kept
    have htake : (data.take (64 - xs.length % 64)).length = 64 - xs.length % 64 := by
      rw [List.length_take]
      omega
    obtain ⟨buffer, hstore, hblock⟩ := @store_eq context.buffer (xs.length % 64)
      (data.take (64 - xs.length % 64)) (by omega)
    have hwhole : buffer.val =
        context.buffer.val.take (xs.length % 64) ++ data.take (64 - xs.length % 64) := by
      rw [← hblock, List.take_of_length_le]
      rw [buffer.property]
      omega
    obtain ⟨state', i', hloop, hshort, hrest⟩ := @transformLoop_spec o data hlen data.length
      (64 - xs.length % 64) (by omega) (by omega) (sha1Transform o context.state buffer.val)
    obtain ⟨buffer', hstore', hkeep⟩ := @store_eq buffer 0 (data.drop i') (by omega)
    have hfill : feed 64 compress ⟨context.state, context.buffer.val.take (xs.length % 64)⟩
        (data.take (64 - xs.length % 64)) = ⟨sha1Transform o context.state buffer.val, []⟩ := by
      rw [sha1Transform_eq o _ buffer.property, hwhole]
      refine feed_fill ?_ (by rw [hpend, htake]; omega)
      intro hnil
      rw [hnil, List.length_nil] at htake
      omega
    have hall : feed 64 compress ⟨initial, []⟩ (xs ++ data) = ⟨state', data.drop i'⟩ := by
      calc feed 64 compress ⟨initial, []⟩ (xs ++ data)
          = feed 64 compress ⟨context.state, context.buffer.val.take (xs.length % 64)⟩
              (data.take (64 - xs.length % 64) ++ data.drop (64 - xs.length % 64)) := by
            rw [feed_append, hfed, List.take_append_drop]
        _ = feed 64 compress ⟨sha1Transform o context.state buffer.val, []⟩
              (data.drop (64 - xs.length % 64)) := by rw [feed_append, hfill]
        _ = ⟨state', data.drop i'⟩ := hrest
    refine ⟨⟨state', count0, count1, buffer'⟩, ?_, ⟨?_, hnew0, hnew1⟩⟩
    · simp only [hstore, bind, Option.bind_some, hloop, hstore']
    · have hpending := @feed_pending_length Chain UInt8 64 compress ⟨initial, []⟩ (by decide)
        (xs ++ data)
      rw [hall] at hpending
      simp only [List.length_nil, Nat.zero_add] at hpending hkeep
      rw [hall, ← hpending, hkeep, List.take_zero, List.nil_append]
  · simp only [if_neg hfull]
    obtain ⟨buffer, hstore, hkeep⟩ := @store_eq context.buffer (xs.length % 64) data (by omega)
    refine ⟨⟨context.state, count0, count1, buffer⟩, ?_, ⟨?_, hnew0, hnew1⟩⟩
    · simp only [hstore, bind, Option.bind_some]
    · have hmod : (xs ++ data).length % 64 = xs.length % 64 + data.length := by
        rw [htotal]
        omega
      rw [feed_append, hfed, feed_short (by rw [hpend]; omega), hmod, hkeep]

/-- Any number of pieces. -/
theorem sha1Update_pieces (o : ByteOrder) (buffer : Buffer) (pieces : List Bytes)
    (hlen : ∀ p ∈ pieces, p.length + 63 < 2 ^ 32) :
    ∃ context, pieces.foldlM (sha1Update o) (sha1Init buffer) = some context ∧
      Holds context pieces.flatten :=
  runM_pieces (fun _ _ _ h hp => h.update o hp) (holds_init buffer) pieces hlen

/-! ## §2 — the end.

A byte `0x80`, zero bytes up to eight before the end of a block, and the eight bytes of the count. -/

/-- The byte of a word that the last loops take. -/
theorem byteOf_eq (w i : Nat) : byteOf w i = UInt8.ofNat (w / 256 ^ (3 - i % 4)) := by
  have h3 : i &&& 3 = i % 4 := Nat.and_two_pow_sub_one_eq_mod i 2
  have h255 (n : Nat) : n &&& 255 = n % 256 := Nat.and_two_pow_sub_one_eq_mod n 8
  have hpow : (2 : Nat) ^ ((3 - i % 4) * 8) = 256 ^ (3 - i % 4) := by
    rw [Nat.mul_comm, Nat.pow_mul]
  rw [byteOf, h3, h255, Nat.shiftRight_eq_div_pow, hpow]
  exact UInt8.toNat_inj.mp (by simp)

/-- The end of the message: a one, and zeros up to 8 bytes before the end of a block. -/
theorem padLoop_spec (o : ByteOrder) {context : Sha1Ctx} {xs : Bytes} (h : Holds context xs)
    {fuel : Nat} (hfuel : (120 - xs.length % 64) % 64 < fuel) :
    ∃ context', padLoop o fuel context = some context' ∧
      Holds context' (xs ++ List.replicate ((120 - xs.length % 64) % 64) 0) := by
  induction fuel generalizing context xs with
  | zero => exact absurd hfuel (Nat.not_lt_zero _)
  | succ fuel ih =>
    -- `count[0] & 504` is the fill of the block in bits: the low bits of eight times the length
    have hbits : context.count0 &&& 504 = 8 * (xs.length % 64) := by
      have hsplit : context.count0 = (xs.length % 2 ^ 29) <<< 3 := by
        rw [h.count0, Nat.shiftLeft_eq]
        omega
      rw [hsplit, show (504 : Nat) = 63 <<< 3 from rfl, ← Nat.shiftLeft_and_distrib,
        show (63 : Nat) = 2 ^ 6 - 1 from rfl, Nat.and_two_pow_sub_one_eq_mod, Nat.shiftLeft_eq]
      omega
    rw [padLoop, hbits]
    by_cases hend : xs.length % 64 = 56
    · rw [if_pos (by omega), hend]
      exact ⟨context, rfl, by simpa using h⟩
    · rw [if_neg (by omega)]
      obtain ⟨context₁, hone, hnext⟩ := h.update o (show [(0 : UInt8)].length + 63 < 2 ^ 32 by decide)
      have hlen : (xs ++ [(0 : UInt8)]).length = xs.length + 1 := by simp
      -- one zero byte brings the padding one byte nearer to its end, and never past it
      have hless : (120 - (xs ++ [(0 : UInt8)]).length % 64) % 64 + 1 =
          (120 - xs.length % 64) % 64 := by
        rw [hlen]
        omega
      obtain ⟨context', hloop, hall⟩ := ih hnext (by omega)
      refine ⟨context', ?_, ?_⟩
      · simp only [hone, bind, Option.bind_some, hloop]
      · rw [← hless, List.replicate_succ, ← List.singleton_append, ← List.append_assoc]
        exact hall

/-- The eight bytes of the counts are the number of bits. -/
theorem finalcount_eq {context : Sha1Ctx} {xs : Bytes} (h : Holds context xs) :
    ((List.range 8).map fun i => byteOf (if 4 ≤ i then context.count0 else context.count1) i) =
      be 8 (8 * xs.length) := by
  have hsame : ∀ k < 8, byteOf (if 4 ≤ k then context.count0 else context.count1) k =
      UInt8.ofNat (8 * xs.length / 256 ^ (7 - k)) := by
    intro k hk
    rw [byteOf_eq]
    apply UInt8.toNat_inj.mp
    rw [h.count0, h.count1]
    interval_cases k <;> simp <;> omega
  simp only [List.range_succ, List.range_zero, List.nil_append, List.map_append, List.map_cons,
    List.map_nil]
  rw [hsame 0 (by decide), hsame 1 (by decide), hsame 2 (by decide), hsame 3 (by decide),
    hsame 4 (by decide), hsame 5 (by decide), hsame 6 (by decide), hsame 7 (by decide)]
  rfl

/-- The digest is written word by word, the highest byte first. -/
theorem digest_eq (h : Chain) :
    ((List.range 20).map fun i => byteOf (h.get (i >>> 2)).toNat i) = digest h := by
  simp only [byteOf_eq]
  rfl

/-- **`SHA1Final`** gives the hash of everything the context was fed with.  The padding is fed to
the same function, so that only its bytes have to be compared with the standard's. -/
theorem sha1Final_spec (o : ByteOrder) {context : Sha1Ctx} {xs : Bytes} (h : Holds context xs) :
    sha1Final o context = some (sha1 xs) := by
  obtain ⟨context₁, hmark, h₁⟩ := h.update o (show [(0x80 : UInt8)].length + 63 < 2 ^ 32 by decide)
  obtain ⟨context₂, hpad, h₂⟩ := padLoop_spec o h₁
    (show (120 - (xs ++ [(0x80 : UInt8)]).length % 64) % 64 < 65 by omega)
  have hcount := finalcount_eq h
  obtain ⟨context₃, hbits, h₃⟩ := h₂.update o
    (show (be 8 (8 * xs.length)).length + 63 < 2 ^ 32 by rw [be_length]; decide)
  have hlen : (xs ++ [(0x80 : UInt8)]).length = xs.length + 1 := by simp
  have hzeros : (120 - (xs ++ [(0x80 : UInt8)]).length % 64) % 64 = (119 - xs.length % 64) % 64 := by
    rw [hlen]
    omega
  -- what was fed in the end is the padded message
  have hmsg : ((xs ++ [(0x80 : UInt8)]) ++
      List.replicate ((120 - (xs ++ [(0x80 : UInt8)]).length % 64) % 64) 0) ++
      be 8 (8 * xs.length) = padded xs := by
    rw [hzeros, padded]
    simp
  rw [hmsg] at h₃
  have hstate : context₃.state = (blocks 64 (padded xs)).foldl compress initial := by
    have hfed := h₃.fed
    rw [feed_eq_blocks (by decide)] at hfed
    exact (congrArg Fed.state hfed).symm
  simp only [sha1Final, hcount, hmark, hpad, hbits, bind, Option.bind_some, pure, digest_eq, hstate]
  rfl

/-- **The code computes SHA-1.**  For every list of pieces, on machines of both byte orders and
whatever was in the buffer.  The digest on the right is that of the standard, over bits and words
and without a buffer.  The counter of the code has two words with a carry by hand, and is right for
messages of up to `2^64` bits; `SHA1Final` pads through the same `SHA1Update`, a byte at a time. -/
theorem sha1_pieces (o : ByteOrder) (buffer : Buffer) (pieces : List Bytes)
    (hlen : ∀ p ∈ pieces, p.length + 63 < 2 ^ 32) :
    (pieces.foldlM (sha1Update o) (sha1Init buffer)).bind (sha1Final o) =
      some (sha1 pieces.flatten) := by
  obtain ⟨context, hrun, hholds⟩ := sha1Update_pieces o buffer pieces hlen
  rw [hrun]
  exact sha1Final_spec o hholds

/-- A buffer of zeros. -/
def zeros : Buffer := ⟨List.replicate 64 0, List.length_replicate⟩

/-- `"abc"`, in two pieces. -/
theorem sha1_pieces_abc :
    ([[0x61], [0x62, 0x63]].foldlM (sha1Update .little) (sha1Init zeros)).bind (sha1Final .little) =
      some (sha1 [0x61, 0x62, 0x63]) :=
  sha1_pieces .little zeros [[0x61], [0x62, 0x63]] (by decide)

/-! The digest of `"abc"` that the source gives as a test. -/

example :
    ([[0x61], [0x62, 0x63]].foldlM (sha1Update .little) (sha1Init zeros)).bind (sha1Final .little) =
      some [0xA9, 0x99, 0x3E, 0x36, 0x47, 0x06, 0x81, 0x6A, 0xBA, 0x3E,
        0x25, 0x71, 0x78, 0x50, 0xC2, 0x6C, 0x9C, 0xD0, 0xD8, 0x9D] := by
  decide +kernel

end TarantoolC.Sha1
