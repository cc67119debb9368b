/-
# TarantoolC.Base64 — text for bytes (`third_party/base64.c`).

The encoder and the decoder are machines of three and of four steps.  Both are given a buffer, and
both stop where it ends, in whatever step they are.

The encoder checks for room before each character, and before the last two of a group for both, so
that it leaves three characters of a buffer unused rather than write one too many.

The decoder takes less care.  It passes over every character that is no digit, wherever that stands,
but its table has 80 entries and the check before it lets position 80 through: the character `{` is
read from behind the table.  It also reads the byte at `*out_pos` where it stops, which is behind the
buffer when the buffer is full.  A read or a write outside is `none` here.

Both are about one row of bits (`Regroup`): `base64Decode_spec` says what is decoded from any text
into any buffer, `base64Encode_spec` what is written for any input into any buffer, and
`base64_round_trip` puts the two together.

`char` is signed in the model, as the code relies on: the table of the decoder marks what is no
digit with -1 and -2 in an array of `char`, and the loop tests `fragment < 0`.  Where a compiler has
an unsigned `char` no character would ever be passed over.  (`base64_decode_value` itself asks for a
`signed char` when it takes the position.)

The parts, in the order of the proofs:

* digits — `sextets` is what a text spells for the decoder, all else being passed over, and
  `sextet?_encodeValue` says that the encoder's characters spell what they were made from;
* the decoder between two digits — `Filled` while there is room and `Full` after, with one lemma for
  a digit in either (`Filled.digit`) and one for the loop (`Filled.loop`);
* the encoder between two bytes — `Encoded`, which one byte keeps in each of the three steps
  (`Encoded.byteA` to `Encoded.byteC`), and `Advances`, what the loop does with a byte: it returns
  for lack of room, or goes on;
* both together, for the buffer sizes that callers use and for all others.
-/
import TarantoolC.Regroup
import TarantoolC.MsgPack.Format

namespace TarantoolC.Base64

open MsgPack Regroup

/-! ## §1 — the encoder.

The step is part of the state, so that a call may stop in any of the three and the next one goes on
there.  The library is called with whole inputs only, and the model has the state all the same. -/

/-- `enum base64_encodestep`. -/
inductive EncodeStep where
  | A | B | C
  deriving Repr, DecidableEq

/-- `struct base64_encodestate`. -/
structure EncodeState where
  step : EncodeStep
  result : UInt8
  stepcount : Nat
  deriving Repr, DecidableEq

/-- `base64_encodestate_init`. -/
def encodeStateInit : EncodeState := ⟨.A, 0, 0⟩

/-- `encoding`, with the byte that ends the string. -/
def encoding : Bytes :=
  "ABCDEFGHIJKLMNOPQRSTUVWXYZabcdefghijklmnopqrstuvwxyz0123456789+/".toList.map
    (fun c => UInt8.ofNat c.toNat) ++ [0]

/-- `base64_encode_value`. -/
def base64EncodeValue (value : UInt8) : UInt8 :=
  if value.toNat > encoding.length - 1 then 61 else encoding.getD value.toNat 0

/-- `BASE64_CHARS_PER_LINE`. -/
def charsPerLine : Nat := 72

/-- The loop of `base64_encode_block`, from the label `at_` on: `out` is what has been written.  The
return behind the newline's check is the one that leaves `state` as it was. -/
def base64EncodeBlock (outLen : Nat) (state : EncodeState) (at_ : EncodeStep) (result : UInt8)
    (out : Bytes) : Bytes → Bytes × EncodeState
  | [] => (out, { state with result := result, step := at_ })
  | fragment :: rest =>
    match at_ with
    | .A =>
      if out.length ≥ outLen then (out, { state with result := result, step := .A })
      else base64EncodeBlock outLen state .B ((fragment &&& 0x03) <<< 4)
        (out ++ [base64EncodeValue ((fragment &&& 0xfc) >>> 2)]) rest
    | .B =>
      if out.length ≥ outLen then (out, { state with result := result, step := .B })
      else base64EncodeBlock outLen state .C ((fragment &&& 0x0f) <<< 2)
        (out ++ [base64EncodeValue (result ||| ((fragment &&& 0xf0) >>> 4))]) rest
    | .C =>
      if out.length + 2 ≥ outLen then (out, { state with result := result, step := .C })
      else
        let out := out ++ [base64EncodeValue (result ||| ((fragment &&& 0xc0) >>> 6))]
        let result := fragment &&& 0x3f
        let out := out ++ [base64EncodeValue result]
        let state := { state with stepcount := state.stepcount + 1 }
        if state.stepcount * 4 = charsPerLine then
          if out.length ≥ outLen then (out, state)
          else base64EncodeBlock outLen { state with stepcount := 0 } .A result (out ++ [10]) rest
        else base64EncodeBlock outLen state .A result out rest

/-- `base64_encode_blockend`: the characters, and whether the byte that ends a string is behind
them. -/
def base64EncodeBlockend (outLen : Nat) (state : EncodeState) : Bytes × Bool :=
  match state.step with
  | .B =>
    if 2 ≥ outLen then ([], false)
    else
      let out := [base64EncodeValue state.result, 61, 61]
      (out, decide (out.length < outLen))
  | .C =>
    if 1 ≥ outLen then ([], false)
    else
      let out := [base64EncodeValue state.result, 61]
      (out, decide (out.length < outLen))
  | .A => ([], decide (0 < outLen))

/-- `base64_encode`: what is written, and whether the byte that ends a string is behind it.  The
length of the first is what is returned. -/
def base64Encode (inBin : Bytes) (outLen : Nat) : Bytes × Bool :=
  let block := base64EncodeBlock outLen encodeStateInit .A 0 [] inBin
  let ending := base64EncodeBlockend (outLen - block.1.length) block.2
  (block.1 ++ ending.1, ending.2)

/-- `base64_bufsize`, where `binsize * 4` is an `int`. -/
def base64Bufsize (binsize : Nat) : Option Nat := do
  guard (binsize * 4 < 2 ^ 31)
  let datasize := binsize * 4 / 3 + 4
  let newlines := (datasize + charsPerLine - 1) / charsPerLine
  return datasize + newlines

/-! ## §2 — the decoder.

`decodeLoop` is structural in the text: each character is passed over, or is a digit in one of four
steps, or is the `{` at which the table is left. -/

/-- `enum base64_decodestep`. -/
inductive DecodeStep where
  | a | b | c | d
  deriving Repr, DecidableEq

/-- `struct base64_decodestate`. -/
structure DecodeState where
  step : DecodeStep
  result : UInt8
  deriving Repr, DecidableEq

/-- `decoding`. -/
def decoding : List Int8 :=
  [62, -1, -1, -1, 63, 52, 53, 54, 55, 56, 57, 58,
   59, 60, 61, -1, -1, -1, -2, -1, -1, -1, 0, 1,
   2, 3, 4, 5, 6, 7, 8, 9, 10, 11, 12, 13,
   14, 15, 16, 17, 18, 19, 20, 21, 22, 23, 24, 25,
   -1, -1, -1, -1, -1, -1, 26, 27, 28, 29, 30, 31,
   32, 33, 34, 35, 36, 37, 38, 39, 40, 41, 42, 43,
   44, 45, 46, 47, 48, 49, 50, 51]

/-- `base64_decode_value`: the check is `codepos > decoding_size`. -/
def base64DecodeValue (value : UInt8) : Option Int8 :=
  let codepos := value.toInt8.toInt - 43
  if codepos < 0 ∨ codepos > decoding.length then some (-1) else decoding[codepos.toNat]?

/-- `*out_pos = v`. -/
def store (mem : Bytes) (pos : Nat) (v : UInt8) : Option Bytes :=
  if pos < mem.length then some (mem.set pos v) else none

/-- What `base64_decode_block` leaves: the buffer, the length it returns, and the state. -/
structure Decoded where
  mem : Bytes
  len : Nat
  state : DecodeState
  deriving Repr, DecidableEq

/-- A return from the loop in the step `at_`. -/
def decodeReturn (at_ : DecodeStep) (mem : Bytes) (pos : Nat) : Option Decoded := do
  let result ← mem[pos]?
  return ⟨mem, pos, ⟨at_, result⟩⟩

/-- `*out_pos++ |= high; if (out_pos < out_end) *out_pos = low;`, of the steps `b` and `c`. -/
def fillByte (outLen : Nat) (mem : Bytes) (pos : Nat) (high low : UInt8) : Option (Bytes × Nat) := do
  let v ← mem[pos]?
  let mem ← store mem pos (v ||| high)
  if pos + 1 < outLen then
    let mem ← store mem (pos + 1) low
    return (mem, pos + 1)
  else return (mem, pos + 1)

/-- What a step does with a digit: the buffer, and where `out_pos` is then. -/
def decodeDigit (outLen : Nat) (at_ : DecodeStep) (mem : Bytes) (pos : Nat) (fragment : UInt8) :
    Option (Bytes × Nat) :=
  match at_ with
  | .a => do
    let mem ← store mem pos ((fragment &&& 0x3f) <<< 2)
    return (mem, pos)
  | .b => fillByte outLen mem pos ((fragment &&& 0x30) >>> 4) ((fragment &&& 0x0f) <<< 4)
  | .c => fillByte outLen mem pos ((fragment &&& 0x3c) >>> 2) ((fragment &&& 0x03) <<< 6)
  | .d => do
    let v ← mem[pos]?
    let mem ← store mem pos (v ||| (fragment &&& 0x3f))
    return (mem, pos + 1)

/-- The step behind a step. -/
def DecodeStep.next : DecodeStep → DecodeStep
  | .a => .b
  | .b => .c
  | .c => .d
  | .d => .a

/-- The loop of `base64_decode_block`, from the label `at_` on. -/
def decodeLoop (outLen : Nat) (at_ : DecodeStep) (mem : Bytes) (pos : Nat) :
    Bytes → Option Decoded
  | [] => decodeReturn at_ mem pos
  | value :: rest =>
    if pos ≥ outLen then decodeReturn at_ mem pos
    else do
      let fragment ← base64DecodeValue value
      if fragment < 0 then decodeLoop outLen at_ mem pos rest
      else do
        let (mem, pos) ← decodeDigit outLen at_ mem pos fragment.toUInt8
        decodeLoop outLen at_.next mem pos rest

/-- `base64_decode_block`. -/
def base64DecodeBlock (inBase64 mem : Bytes) (outLen : Nat) (state : DecodeState) :
    Option Decoded := do
  let mem ← store mem 0 state.result
  decodeLoop outLen state.step mem 0 inBase64

/-- `base64_decode`: the state it begins with is `step_a` and 0. -/
def base64Decode (inBase64 mem : Bytes) (outLen : Nat) : Option (Bytes × Nat) :=
  (base64DecodeBlock inBase64 mem outLen ⟨.a, 0⟩).map fun r => (r.mem, r.len)

/-! ## §3 — the digits of a text.

What both sides agree on: characters for digits of six bits, checked for all 256 characters by
evaluation. -/

/-- The digit a character is: six bits, or nothing, where the decoder passes over it. -/
def sextet? (value : UInt8) : Option Nat :=
  match base64DecodeValue value with
  | some fragment => if fragment < 0 then none else some fragment.toUInt8.toNat
  | none => none

/-- The digits of a text. -/
def sextets (text : Bytes) : List Nat := text.filterMap sextet?

/-- The bits of bytes. -/
def byteBits (bs : Bytes) : List Bool := spread 8 (bs.map UInt8.toNat)

/-- The digits of a text are those of its parts. -/
theorem sextets_append (xs ys : Bytes) : sextets (xs ++ ys) = sextets xs ++ sextets ys :=
  List.filterMap_append

/-- So are the bits of bytes. -/
theorem byteBits_append (xs ys : Bytes) : byteBits (xs ++ ys) = byteBits xs ++ byteBits ys := by
  rw [byteBits, List.map_append, spread_append]
  rfl

/-- Eight bits a byte. -/
@[simp] theorem byteBits_length (bs : Bytes) : (byteBits bs).length = 8 * bs.length := by
  rw [byteBits, spread_length, List.length_map]

/-- One byte. -/
theorem byteBits_singleton (b : UInt8) : byteBits [b] = bits 8 b.toNat := spread_singleton _ _

/-- What is true of the 256 values of a byte. -/
theorem forall_byte {p : UInt8 → Prop} (h : ∀ n < 256, p (UInt8.ofNat n)) (b : UInt8) : p b := by
  have hb := h b.toNat b.toNat_lt
  rwa [UInt8.ofNat_toNat] at hb

/-- **The one character the table is read too far for** is `{`. -/
theorem base64DecodeValue_eq_none_iff (value : UInt8) :
    base64DecodeValue value = none ↔ value = 123 := by
  revert value
  exact forall_byte (by decide +kernel)

/-- A digit has six bits. -/
theorem sextet?_bounds (value : UInt8) : ∀ s ∈ sextet? value, s < 64 := by
  revert value
  exact forall_byte (by decide +kernel)

/-- What the encoder writes for a digit is read as that digit. -/
theorem sextet?_encodeValue : ∀ v < 64, sextet? (base64EncodeValue (UInt8.ofNat v)) = some v ∧
    base64EncodeValue (UInt8.ofNat v) ≠ 123 := by
  decide +kernel

/-- Bytes are digits of eight bits, ... -/
theorem map_toNat_lt (bs : Bytes) : ∀ n ∈ bs.map UInt8.toNat, n < 2 ^ 8 := by
  intro n hn
  obtain ⟨b, -, rfl⟩ := List.mem_map.mp hn
  exact b.toNat_lt

/-- ... and differ as such. -/
theorem map_toNat_inj {xs ys : Bytes} (h : xs.map UInt8.toNat = ys.map UInt8.toNat) : xs = ys :=
  List.map_injective_iff.mpr (fun _ _ => UInt8.toNat_inj.mp) h

/-- Bytes whose bits begin other bytes begin them. -/
theorem prefix_of_byteBits {xs ys : Bytes} {t : List Bool} (ht : t.length < 8)
    (h : byteBits xs <+: byteBits ys ++ t) : xs <+: ys := by
  have hnat := prefix_of_spread (map_toNat_lt xs) (map_toNat_lt ys) ht h
  rw [List.prefix_iff_eq_take] at hnat ⊢
  refine map_toNat_inj ?_
  rwa [List.map_take, ← @List.length_map _ _ xs UInt8.toNat]

/-- A byte in two parts that do not meet. -/
theorem or_toNat {v h : UInt8} {j x : Nat} (hv : v.toNat = 2 ^ j * x) (hh : h.toNat < 2 ^ j) :
    (v ||| h).toNat = 2 ^ j * x + h.toNat := by
  rw [UInt8.toNat_or, hv, Nat.two_pow_add_eq_or_of_lt hh]

/-! ## §4 — what is decoded.

`Filled` is the invariant between two digits: the bytes written are the bits of the digits so far,
but for those that the next byte holds back, which stand in it already.  A digit either completes a
byte or goes into the one at the position. -/

/-- The bits of the byte at `*out_pos` that are there already. -/
def DecodeStep.kept : DecodeStep → Nat
  | .a => 0
  | .b => 6
  | .c => 4
  | .d => 2

/-- **The decoder between two digits**, while there is room: the digits seen are the bytes before
`out_pos` and the upper bits of the byte there. -/
structure Filled (mem₀ : Bytes) (outLen : Nat) (seen : List Nat) (at_ : DecodeStep) (mem : Bytes)
    (pos : Nat) : Prop where
  length : mem.length = mem₀.length
  inside : pos < outLen
  holds : ∃ x, spread 6 seen = byteBits (mem.take pos) ++ bits at_.kept x ∧
    (at_ ≠ .a → (mem.getD pos 0).toNat = 2 ^ (8 - at_.kept) * x)
  frame : mem.drop (pos + 1) = mem₀.drop (pos + 1)

/-- The decoder where the buffer is full. -/
structure Full (mem₀ : Bytes) (outLen : Nat) (seen : List Nat) (mem : Bytes) (pos : Nat) : Prop where
  length : mem.length = mem₀.length
  pos_eq : pos = outLen
  holds : byteBits (mem.take outLen) <+: spread 6 seen
  frame : mem.drop outLen = mem₀.drop outLen

section Decode

variable {mem₀ mem : Bytes} {outLen pos : Nat} {seen : List Nat} {at_ : DecodeStep}

/-- A read inside the buffer, ... -/
theorem getElem?_eq_getD (h : pos < mem.length) : mem[pos]? = some (mem.getD pos 0) := by
  rw [List.getD_eq_getElem?_getD, List.getElem?_eq_getElem h]
  rfl

/-- ... and a store inside it. -/
theorem store_eq {v : UInt8} (h : pos < mem.length) : store mem pos v = some (mem.set pos v) :=
  if_pos h

/-- The byte stored is the last of those that are done, ... -/
theorem take_set_succ (v : UInt8) (h : pos < mem.length) :
    (mem.set pos v).take (pos + 1) = mem.take pos ++ [v] := by
  rw [List.take_add_one, List.take_set_of_le (Nat.le_refl pos), List.getElem?_set_self h]
  rfl

/-- ... and what is behind it stays. -/
theorem drop_set_succ (v : UInt8) : (mem.set pos v).drop (pos + 1) = mem.drop (pos + 1) :=
  List.drop_set_of_lt (Nat.lt_succ_self pos)

/-- How far the digits have come. -/
theorem Filled.count (h : Filled mem₀ outLen seen at_ mem pos) (hmem : outLen ≤ mem₀.length) :
    6 * seen.length / 8 = pos := by
  obtain ⟨x, hbits, -⟩ := h.holds
  have hlen := congrArg List.length hbits
  have hin := h.inside
  have hm := h.length
  have hkept : at_.kept < 8 := by cases at_ <;> decide
  rw [spread_length, List.length_append, byteBits_length, bits_length, List.length_take,
    Nat.min_eq_left (by omega)] at hlen
  omega

/-- **The byte at `*out_pos` is filled up** with the upper bits of a digit.  They are added to what
the byte has from the digit before, whose lower bits they do not overlap. -/
theorem Filled.fill {k x s : Nat} {v w : UInt8} (hk : k ≤ 6)
    (hseen : spread 6 seen = byteBits (mem.take pos) ++ bits (2 + k) x)
    (hv : v.toNat = 2 ^ (6 - k) * x) (hw : w.toNat = s / 2 ^ k) (hs : s < 64)
    (hpos : pos < mem.length) :
    spread 6 (seen ++ [s]) =
      byteBits ((mem.set pos (v ||| w)).take (pos + 1)) ++ bits k (s % 2 ^ k) := by
  have hsplit : 6 - k + k = 6 := by omega
  have hhigh : w.toNat < 2 ^ (6 - k) := by
    rw [hw, Nat.div_lt_iff_lt_mul (Nat.two_pow_pos k), ← Nat.pow_add, hsplit]
    exact hs
  have hcarry := carry (2 + k) (6 - k) k x s (by rw [hsplit]; exact hs)
  rw [hsplit, show 2 + k + (6 - k) = 8 by omega] at hcarry
  calc spread 6 (seen ++ [s])
      = byteBits (mem.take pos) ++ (bits (2 + k) x ++ bits 6 s) := by
        rw [spread_append, spread_singleton, hseen, List.append_assoc]
    _ = byteBits (mem.take pos) ++ (bits 8 (v ||| w).toNat ++ bits k (s % 2 ^ k)) := by
        rw [hcarry, or_toNat hv hhigh, hw]
    _ = byteBits ((mem.set pos (v ||| w)).take (pos + 1)) ++ bits k (s % 2 ^ k) := by
        rw [take_set_succ _ hpos, byteBits_append, byteBits_singleton, List.append_assoc]

/-- The masks of the four steps. -/
theorem masks : ∀ s < 64,
    ((UInt8.ofNat s &&& 0x3f) <<< 2).toNat = 2 ^ 2 * s ∧
    ((UInt8.ofNat s &&& 0x30) >>> 4).toNat = s / 2 ^ 4 ∧
    ((UInt8.ofNat s &&& 0x0f) <<< 4).toNat = 2 ^ 4 * (s % 2 ^ 4) ∧
    ((UInt8.ofNat s &&& 0x3c) >>> 2).toNat = s / 2 ^ 2 ∧
    ((UInt8.ofNat s &&& 0x03) <<< 6).toNat = 2 ^ 6 * (s % 2 ^ 2) ∧
    (UInt8.ofNat s &&& 0x3f).toNat = s / 2 ^ 0 := by
  decide +kernel

/-- The byte at `*out_pos` is full and the buffer goes on: what is over stands in the next byte. -/
theorem Filled.go_on {mem₁ : Bytes} {k s : Nat} {low : UInt8} {next : DecodeStep}
    (h : Filled mem₀ outLen seen at_ mem pos) (hlen : mem₁.length = mem.length)
    (hdrop : mem₁.drop (pos + 1) = mem.drop (pos + 1)) (hnext : next.kept = k)
    (hbits : spread 6 (seen ++ [s]) = byteBits (mem₁.take (pos + 1)) ++ bits k (s % 2 ^ k))
    (hlow : low.toNat = 2 ^ (8 - k) * (s % 2 ^ k)) (hroom : pos + 1 < outLen)
    (hmem : outLen ≤ mem.length) :
    Filled mem₀ outLen (seen ++ [s]) next (mem₁.set (pos + 1) low) (pos + 1) := by
  refine ⟨by rw [List.length_set, hlen, h.length], hroom, ⟨s % 2 ^ k, ?_, fun _ => ?_⟩, ?_⟩
  · rw [hnext, hbits, List.take_set_of_le (Nat.le_refl _)]
  · rw [hnext, List.getD_eq_getElem?_getD, List.getElem?_set_self (by omega)]
    exact hlow
  · rw [drop_set_succ, ← List.drop_drop, hdrop, h.frame, List.drop_drop]

/-- The byte at `*out_pos` was the last one. -/
theorem Filled.stop {mem₁ : Bytes} {k s : Nat} (h : Filled mem₀ outLen seen at_ mem pos)
    (hlen : mem₁.length = mem.length) (hdrop : mem₁.drop (pos + 1) = mem.drop (pos + 1))
    (hbits : spread 6 (seen ++ [s]) = byteBits (mem₁.take (pos + 1)) ++ bits k (s % 2 ^ k))
    (hroom : ¬ pos + 1 < outLen) : Full mem₀ outLen (seen ++ [s]) mem₁ (pos + 1) := by
  have hpos : pos + 1 = outLen := by
    have hin := h.inside
    omega
  refine ⟨by rw [hlen, h.length], hpos, ?_, ?_⟩
  · rw [hbits, hpos]
    exact List.prefix_append _ _
  · rw [← hpos, hdrop, h.frame]

/-- The steps `b` and `c`: the byte is filled up, and the next one is begun where there is one. -/
theorem Filled.fillByte_spec {k x s : Nat} {high low : UInt8} {next : DecodeStep}
    (h : Filled mem₀ outLen seen at_ mem pos) (hk : k ≤ 6) (hnext : next.kept = k)
    (hseen : spread 6 seen = byteBits (mem.take pos) ++ bits (2 + k) x)
    (hv : (mem.getD pos 0).toNat = 2 ^ (6 - k) * x) (hhigh : high.toNat = s / 2 ^ k)
    (hlow : low.toNat = 2 ^ (8 - k) * (s % 2 ^ k)) (hs : s < 64) (hmem : outLen ≤ mem.length) :
    ∃ mem' pos', fillByte outLen mem pos high low = some (mem', pos') ∧
      (Filled mem₀ outLen (seen ++ [s]) next mem' pos' ∨
        Full mem₀ outLen (seen ++ [s]) mem' pos') := by
  have hpos : pos < mem.length := Nat.lt_of_lt_of_le h.inside hmem
  have hbits := Filled.fill hk hseen hv hhigh hs hpos
  have hlen : (mem.set pos (mem.getD pos 0 ||| high)).length = mem.length := List.length_set
  have hfirst : fillByte outLen mem pos high low =
      if pos + 1 < outLen then
        (store (mem.set pos (mem.getD pos 0 ||| high)) (pos + 1) low).bind
          fun m => some (m, pos + 1)
      else some (mem.set pos (mem.getD pos 0 ||| high), pos + 1) := by
    rw [fillByte, getElem?_eq_getD hpos, Option.bind_eq_bind, Option.bind_some, store_eq hpos,
      Option.bind_eq_bind, Option.bind_some]
    rfl
  by_cases hroom : pos + 1 < outLen
  · rw [hfirst, if_pos hroom, store_eq (by rw [hlen]; omega)]
    exact ⟨_, _, rfl, .inl (h.go_on hlen (drop_set_succ _) hnext hbits hlow hroom hmem)⟩
  · rw [hfirst, if_neg hroom]
    exact ⟨_, _, rfl, .inr (h.stop hlen (drop_set_succ _) hbits hroom)⟩

/-- **A digit.**  No access is outside, and the digit is in the buffer, or the buffer is full.  By
the step the decoder is in: the first digit of a group only opens a byte, the second and third
complete one and open the next, the fourth completes one. -/
theorem Filled.digit {s : Nat} (h : Filled mem₀ outLen seen at_ mem pos) (hs : s < 64)
    (hmem : outLen ≤ mem.length) :
    ∃ mem' pos', decodeDigit outLen at_ mem pos (UInt8.ofNat s) = some (mem', pos') ∧
      (Filled mem₀ outLen (seen ++ [s]) at_.next mem' pos' ∨
        Full mem₀ outLen (seen ++ [s]) mem' pos') := by
  obtain ⟨hma, hmb, hmb', hmc, hmc', hmd⟩ := masks s hs
  have hpos : pos < mem.length := Nat.lt_of_lt_of_le h.inside hmem
  obtain ⟨x, hseen, hv⟩ := h.holds
  cases at_ with
  | a =>
    -- the first digit of a group opens a byte: nothing of it was there before
    have hstore : decodeDigit outLen .a mem pos (UInt8.ofNat s) =
        some (mem.set pos ((UInt8.ofNat s &&& 0x3f) <<< 2), pos) := by
      rw [decodeDigit, store_eq hpos]
      rfl
    refine ⟨_, _, hstore, .inl ⟨by rw [List.length_set, h.length], h.inside, ⟨s, ?_, fun _ => ?_⟩,
      by rw [drop_set_succ, h.frame]⟩⟩
    · rw [spread_append, spread_singleton, hseen, List.take_set_of_le (Nat.le_refl pos),
        List.append_assoc]
      rfl
    · rw [List.getD_eq_getElem?_getD, List.getElem?_set_self hpos]
      exact hma
  -- the second and the third complete a byte and open the next one
  | b => exact h.fillByte_spec (show 4 ≤ 6 by omega) rfl hseen (hv (by decide)) hmb hmb' hs hmem
  | c => exact h.fillByte_spec (show 2 ≤ 6 by omega) rfl hseen (hv (by decide)) hmc hmc' hs hmem
  | d =>
    -- the fourth completes one and opens none, so there may be no room to go on
    have hbits := Filled.fill (show 0 ≤ 6 by omega) hseen (hv (by decide)) hmd hs hpos
    have hstore : decodeDigit outLen .d mem pos (UInt8.ofNat s) =
        some (mem.set pos (mem.getD pos 0 ||| (UInt8.ofNat s &&& 0x3f)), pos + 1) := by
      rw [decodeDigit, getElem?_eq_getD hpos, Option.bind_eq_bind, Option.bind_some, store_eq hpos]
      rfl
    refine ⟨_, _, hstore, ?_⟩
    by_cases hroom : pos + 1 < outLen
    · refine .inl ⟨by rw [List.length_set, h.length], hroom,
        ⟨s % 2 ^ 0, hbits, fun hne => absurd rfl hne⟩, ?_⟩
      rw [← List.drop_drop, drop_set_succ, h.frame, List.drop_drop]
    · exact .inr (h.stop List.length_set (drop_set_succ _) hbits hroom)

/-- A full buffer ends the loop before anything is looked at. -/
theorem decodeLoop_full (h : outLen ≤ pos) (text : Bytes) :
    decodeLoop outLen at_ mem pos text = decodeReturn at_ mem pos := by
  cases text with
  | nil => rfl
  | cons value rest => rw [decodeLoop, if_pos h]

/-- With room left, `{` is looked up behind the table. -/
theorem decodeLoop_brace (h : pos < outLen) (rest : Bytes) :
    decodeLoop outLen at_ mem pos (123 :: rest) = none := by
  rw [decodeLoop, if_neg (by omega), (base64DecodeValue_eq_none_iff 123).mpr rfl]
  rfl

/-- A character that is no digit is passed over. -/
theorem decodeLoop_skip {value : UInt8} (h : pos < outLen) (hvalue : value ≠ 123)
    (hno : sextet? value = none) (rest : Bytes) :
    decodeLoop outLen at_ mem pos (value :: rest) = decodeLoop outLen at_ mem pos rest := by
  rw [decodeLoop, if_neg (by omega)]
  rw [sextet?] at hno
  split at hno
  · rename_i fragment hfragment
    split at hno
    · rename_i hneg
      rw [hfragment, Option.bind_eq_bind, Option.bind_some, if_pos hneg]
    · cases hno
  · rename_i hnone
    exact absurd ((base64DecodeValue_eq_none_iff value).mp hnone) hvalue

/-- A digit goes to the step that is at hand. -/
theorem decodeLoop_digit {value : UInt8} {s : Nat} (h : pos < outLen)
    (hdigit : sextet? value = some s) (rest : Bytes) :
    decodeLoop outLen at_ mem pos (value :: rest) =
      (decodeDigit outLen at_ mem pos (UInt8.ofNat s)).bind fun p =>
        decodeLoop outLen at_.next p.1 p.2 rest := by
  rw [decodeLoop, if_neg (by omega)]
  rw [sextet?] at hdigit
  split at hdigit
  · rename_i fragment hfragment
    split at hdigit
    · cases hdigit
    · rename_i hneg
      rw [Option.some.injEq] at hdigit
      rw [hfragment, Option.bind_eq_bind, Option.bind_some, if_neg hneg, ← hdigit,
        UInt8.ofNat_toNat]
      rfl
  · cases hdigit

/-- **The loop**: it reads outside its table at the first `{` while there is room; otherwise it
returns at the end of the text, or with a full buffer.  By induction on the text, with what has been
seen in front. -/
theorem Filled.loop (text : Bytes) (h : Filled mem₀ outLen seen at_ mem pos)
    (hmem : outLen ≤ mem₀.length) :
    (∃ front rest, text = front ++ 123 :: rest ∧ 123 ∉ front ∧
      6 * (seen ++ sextets front).length / 8 < outLen ∧
      decodeLoop outLen at_ mem pos text = none) ∨
    ∃ at' mem' pos', decodeLoop outLen at_ mem pos text = decodeReturn at' mem' pos' ∧
      ((123 ∉ text ∧ Filled mem₀ outLen (seen ++ sextets text) at' mem' pos') ∨
        ∃ front, front <+: text ∧ 123 ∉ front ∧
          Full mem₀ outLen (seen ++ sextets front) mem' pos') := by
  induction text generalizing seen at_ mem pos with
  | nil => exact .inr ⟨at_, mem, pos, rfl, .inl ⟨List.not_mem_nil, by simpa [sextets] using h⟩⟩
  | cons value rest ih =>
    by_cases hvalue : value = 123
    · subst hvalue
      -- the table is left here
      refine .inl ⟨[], rest, rfl, List.not_mem_nil, ?_, decodeLoop_brace h.inside rest⟩
      have hcount := h.count hmem
      have hin := h.inside
      simp only [sextets, List.filterMap_nil, List.append_nil]
      omega
    · have hnot : ∀ {front : Bytes}, 123 ∉ front → 123 ∉ value :: front := fun hf hmem =>
        (List.mem_cons.mp hmem).elim (fun he => hvalue he.symm) hf
      cases hs : sextet? value with
      | none =>
        -- no digit: nothing happens
        have hsame : ∀ front, sextets (value :: front) = sextets front := fun front => by
          rw [sextets, List.filterMap_cons_none hs, sextets]
        rw [decodeLoop_skip h.inside hvalue hs]
        rcases ih h with ⟨front, rest', rfl, hfront, hroom, hnone⟩ | ⟨at', mem', pos', hret, hend⟩
        · exact .inl ⟨value :: front, rest', rfl, hnot hfront, by rwa [hsame], hnone⟩
        · refine .inr ⟨at', mem', pos', hret, ?_⟩
          rcases hend with ⟨hrest, hfilled⟩ | ⟨front, hpre, hfront, hfull⟩
          · exact .inl ⟨hnot hrest, by rwa [hsame]⟩
          · exact .inr ⟨value :: front, List.cons_prefix_cons.mpr ⟨rfl, hpre⟩, hnot hfront,
              by rwa [hsame]⟩
      | some s =>
        have hmore : ∀ front, seen ++ sextets (value :: front) = seen ++ [s] ++ sextets front :=
          fun front => by
            rw [sextets, List.filterMap_cons_some hs, List.append_assoc]
            rfl
        -- a digit: there is room for more, or there is none and the loop returns
        obtain ⟨mem₁, pos₁, hdigit, hnext⟩ :=
          h.digit (sextet?_bounds value s hs) (by rw [h.length]; exact hmem)
        rw [decodeLoop_digit h.inside hs, hdigit, Option.bind_some]
        rcases hnext with hfilled | hfull
        · rcases ih hfilled with ⟨front, rest', rfl, hfront, hroom, hnone⟩ |
            ⟨at', mem', pos', hret, hend⟩
          · exact .inl ⟨value :: front, rest', rfl, hnot hfront, by rwa [hmore], hnone⟩
          · refine .inr ⟨at', mem', pos', hret, ?_⟩
            rcases hend with ⟨hrest, hfilled'⟩ | ⟨front, hpre, hfront, hfull⟩
            · exact .inl ⟨hnot hrest, by rwa [hmore]⟩
            · exact .inr ⟨value :: front, List.cons_prefix_cons.mpr ⟨rfl, hpre⟩, hnot hfront,
                by rwa [hmore]⟩
        · refine .inr ⟨_, mem₁, pos₁, decodeLoop_full (Nat.le_of_eq hfull.pos_eq.symm) rest, .inr ?_⟩
          refine ⟨[value], List.cons_prefix_cons.mpr ⟨rfl, List.nil_prefix⟩,
            hnot List.not_mem_nil, ?_⟩
          rw [hmore]
          simpa [sextets] using hfull

end Decode

/-- The text up to the first `{`. -/
def plain (text : Bytes) : Bytes := text.takeWhile (· ≠ 123)

/-- How many bytes there are to decode, in a buffer of `outLen`. -/
def decodedLength (outLen : Nat) (text : Bytes) : Nat :=
  min outLen (6 * (sextets (plain text)).length / 8)

/-- The text up to the first `{`, where a beginning has none. -/
theorem plain_append {front : Bytes} (h : 123 ∉ front) (rest : Bytes) :
    plain (front ++ rest) = front ++ plain rest := by
  have hall : ∀ value ∈ front, decide (value ≠ 123) = true := fun value hvalue =>
    decide_eq_true fun he => h (he ▸ hvalue)
  exact List.takeWhile_append_of_pos hall

/-- A text without `{` is decoded to its end. -/
theorem plain_eq_self {text : Bytes} (h : 123 ∉ text) : plain text = text := by
  have hplain := plain_append h []
  rwa [List.append_nil, show plain [] = [] from rfl, List.append_nil] at hplain

/-- The first `{` is where it ends. -/
theorem plain_append_brace {front : Bytes} (h : 123 ∉ front) (rest : Bytes) :
    plain (front ++ 123 :: rest) = front := by
  rw [plain_append h]
  exact List.append_nil front

/-- What has no `{` and begins the text is before the first one. -/
theorem prefix_plain {front text : Bytes} (h : 123 ∉ front) (hpre : front <+: text) :
    front <+: plain text := by
  obtain ⟨rest, rfl⟩ := hpre
  rw [plain_append h]
  exact List.prefix_append _ _

/-- **What `base64_decode` does with any text and any buffer.**  It stays inside its table and the
caller's memory exactly where no `{` is reached before the buffer is full and there is a byte behind
the last one decoded.  Then the bytes are the bits of the digits, cut anew, and apart from one byte
nothing behind them is written.  What the buffer holds behind the last byte, and one byte further,
is not said: it is where the next digit would have gone. -/
theorem base64Decode_spec {mem : Bytes} {outLen : Nat} (text : Bytes) (hpos : 0 < outLen)
    (hmem : outLen ≤ mem.length) :
    ((base64Decode text mem outLen).isSome ↔ decodedLength outLen text < mem.length ∧
      (123 ∈ text → decodedLength outLen text = outLen)) ∧
    ∀ mem' len, base64Decode text mem outLen = some (mem', len) →
      len = decodedLength outLen text ∧ mem'.length = mem.length ∧
      byteBits (mem'.take len) <+: spread 6 (sextets (plain text)) ∧
      mem'.drop (len + 1) = mem.drop (len + 1) := by
  have hmem0 : 0 < mem.length := Nat.lt_of_lt_of_le hpos hmem
  have hstart : Filled mem outLen [] .a (mem.set 0 0) 0 :=
    ⟨List.length_set, hpos, ⟨0, rfl, fun hne => absurd rfl hne⟩, drop_set_succ 0⟩
  have hrun : base64Decode text mem outLen =
      (decodeLoop outLen .a (mem.set 0 0) 0 text).map fun r => (r.mem, r.len) := by
    rw [base64Decode, base64DecodeBlock, store_eq hmem0]
    rfl
  rw [hrun]
  rcases hstart.loop text hmem with ⟨front, rest, rfl, hfront, hroom, hnone⟩ |
    ⟨at', mem', pos', hret, ⟨htext, hfilled⟩ | ⟨front, hpre, hfront, hfull⟩⟩
  · -- a `{` is reached
    rw [hnone]
    refine ⟨⟨fun h => absurd h Bool.false_ne_true, fun h => ?_⟩, fun _ _ h => by cases h⟩
    have heq := h.2 (List.mem_append_right _ List.mem_cons_self)
    rw [decodedLength, plain_append_brace hfront] at heq
    rw [List.nil_append] at hroom
    omega
  · -- the end of the text
    have hcount := hfilled.count hmem
    have hin := hfilled.inside
    have hlen : decodedLength outLen text = pos' := by
      rw [List.nil_append] at hcount
      rw [decodedLength, plain_eq_self htext]
      omega
    have hget : decodeReturn at' mem' pos' = some ⟨mem', pos', ⟨at', mem'.getD pos' 0⟩⟩ := by
      rw [decodeReturn, getElem?_eq_getD (by rw [hfilled.length]; omega)]
      rfl
    rw [hret, hget, hlen]
    refine ⟨⟨fun _ => ⟨by omega, fun h => absurd h htext⟩, fun _ => rfl⟩, fun m len h => ?_⟩
    rw [Option.map_some, Option.some.injEq, Prod.mk.injEq] at h
    obtain ⟨rfl, rfl⟩ := h
    obtain ⟨x, hbits, -⟩ := hfilled.holds
    rw [List.nil_append] at hbits
    rw [plain_eq_self htext, hbits]
    exact ⟨rfl, hfilled.length, List.prefix_append _ _, hfilled.frame⟩
  · -- the buffer is full
    obtain ⟨digits, hdigits⟩ := prefix_plain hfront hpre
    have hspread : byteBits (mem'.take outLen) <+: spread 6 (sextets (plain text)) := by
      rw [← hdigits, sextets_append, spread_append]
      exact hfull.holds.trans (List.prefix_append _ _)
    have hle := hspread.length_le
    rw [byteBits_length, spread_length, List.length_take, hfull.length, Nat.min_eq_left hmem] at hle
    have hlen : decodedLength outLen text = outLen := by
      rw [decodedLength]
      omega
    have hp := hfull.pos_eq
    subst hp
    rw [hret, hlen]
    by_cases hspare : pos' < mem.length
    · have hget : decodeReturn at' mem' pos' = some ⟨mem', pos', ⟨at', mem'.getD pos' 0⟩⟩ := by
        rw [decodeReturn, getElem?_eq_getD (by rw [hfull.length]; omega)]
        rfl
      rw [hget]
      refine ⟨⟨fun _ => ⟨hspare, fun _ => rfl⟩, fun _ => rfl⟩, fun m len h => ?_⟩
      rw [Option.map_some, Option.some.injEq, Prod.mk.injEq] at h
      obtain ⟨rfl, rfl⟩ := h
      refine ⟨rfl, hfull.length, hspread, ?_⟩
      rw [← List.drop_drop, hfull.frame, List.drop_drop]
    · have hnone : decodeReturn at' mem' pos' = none := by
        rw [decodeReturn, List.getElem?_eq_none (by rw [hfull.length]; omega)]
        rfl
      rw [hnone]
      exact ⟨⟨fun h => absurd h Bool.false_ne_true, fun h => absurd h.1 hspare⟩,
        fun _ _ h => by cases h⟩

/-! ## §5 — what is encoded.

The other way round: a byte of input completes one character or two, and what is left of it waits in
`result` for the next byte. -/

/-- The bits of the last byte that are in no character yet. -/
def EncodeStep.kept : EncodeStep → Nat
  | .A => 0
  | .B => 2
  | .C => 4

/-- The step after a number of bytes. -/
def stepAfter (n : Nat) : EncodeStep :=
  match n % 3 with
  | 0 => .A
  | 1 => .B
  | _ => .C

/-- How many characters are written after a number of bytes, lines included: a line is 18 groups. -/
def charsAfter (n : Nat) : Nat := 4 * (n / 3) + n % 3 + n / 54

/-- **The encoder between two bytes**: the bytes seen are the characters written and what is kept in
`result`. -/
structure Encoded (seen : Bytes) (result : UInt8) (out : Bytes) : Prop where
  holds : ∃ x, byteBits seen = spread 6 (sextets out) ++ bits (stepAfter seen.length).kept x ∧
    (stepAfter seen.length ≠ .A → result.toNat = 2 ^ (6 - (stepAfter seen.length).kept) * x ∧
      x < 2 ^ (stepAfter seen.length).kept)
  length : out.length = charsAfter seen.length
  plain : 123 ∉ out

section Encode

variable {seen out : Bytes} {result : UInt8} {outLen : Nat}

/-- A character for six bits. -/
theorem sextets_encodeValue {v : UInt8} (h : v.toNat < 64) :
    sextets [base64EncodeValue v] = [v.toNat] ∧ 123 ∉ [base64EncodeValue v] := by
  obtain ⟨hs, hne⟩ := sextet?_encodeValue v.toNat h
  rw [UInt8.ofNat_toNat] at hs hne
  exact ⟨by rw [sextets, List.filterMap_cons_some hs, List.filterMap_nil],
    fun hmem => hne (List.mem_singleton.mp hmem).symm⟩

/-- The masks of the three steps. -/
theorem byte_masks (c : UInt8) :
    ((c &&& 0xfc) >>> 2).toNat = c.toNat / 2 ^ 2 ∧
    ((c &&& 0x03) <<< 4).toNat = 2 ^ 4 * (c.toNat % 2 ^ 2) ∧
    ((c &&& 0xf0) >>> 4).toNat = c.toNat / 2 ^ 4 ∧
    ((c &&& 0x0f) <<< 2).toNat = 2 ^ 2 * (c.toNat % 2 ^ 4) ∧
    ((c &&& 0xc0) >>> 6).toNat = c.toNat / 2 ^ 6 ∧
    (c &&& 0x3f).toNat = c.toNat % 2 ^ 6 := by
  revert c
  exact forall_byte (by decide +kernel)

/-- The three steps are the remainders of three. -/
theorem stepAfter_eq (n : Nat) :
    (stepAfter n = .A ↔ n % 3 = 0) ∧ (stepAfter n = .B ↔ n % 3 = 1) ∧
      (stepAfter n = .C ↔ n % 3 = 2) := by
  have hlt := Nat.mod_lt n (show 0 < 3 by omega)
  rw [stepAfter]
  rcases (by omega : n % 3 = 0 ∨ n % 3 = 1 ∨ n % 3 = 2) with h | h | h <;> rw [h] <;> decide

/-- **Characters for a byte**: the digits are the bits kept and the upper bits of the byte.  It is
`carry` of `TarantoolC.Regroup`, for bytes in and digits of six bits out. -/
theorem Encoded.more {c : UInt8} {chars : Bytes} {result' : UInt8} (digits : List Nat) (k x : Nat)
    (h : Encoded seen result out) (hnext : (stepAfter (seen.length + 1)).kept = k)
    (hcarry : bits (stepAfter seen.length).kept x ++ bits 8 c.toNat =
      spread 6 digits ++ bits k (c.toNat % 2 ^ k))
    (hx : byteBits seen = spread 6 (sextets out) ++ bits (stepAfter seen.length).kept x)
    (hchars : sextets chars = digits) (hplain : 123 ∉ chars)
    (hlen : charsAfter (seen.length + 1) = charsAfter seen.length + chars.length)
    (hresult : stepAfter (seen.length + 1) ≠ .A →
      result'.toNat = 2 ^ (6 - k) * (c.toNat % 2 ^ k)) :
    Encoded (seen ++ [c]) result' (out ++ chars) := by
  have hone : (seen ++ [c]).length = seen.length + 1 := by simp
  refine ⟨⟨c.toNat % 2 ^ k, ?_, fun hne => ?_⟩, ?_, ?_⟩
  · calc byteBits (seen ++ [c])
        = spread 6 (sextets out) ++ (bits (stepAfter seen.length).kept x ++ bits 8 c.toNat) := by
          rw [byteBits_append, byteBits_singleton, hx, List.append_assoc]
      _ = spread 6 (sextets (out ++ chars)) ++ bits k (c.toNat % 2 ^ k) := by
          rw [hcarry, sextets_append, spread_append, hchars, List.append_assoc]
      _ = _ := by rw [hone, hnext]
  · rw [hone] at hne ⊢
    rw [hnext]
    exact ⟨hresult hne, Nat.mod_lt _ (Nat.two_pow_pos k)⟩
  · rw [List.length_append, h.length, hone, hlen]
  · exact fun hmem => (List.mem_append.mp hmem).elim h.plain hplain

/-- The first byte of a group. -/
theorem Encoded.byteA (h : Encoded seen result out) (hstep : seen.length % 3 = 0) (c : UInt8) :
    Encoded (seen ++ [c]) ((c &&& 0x03) <<< 4)
      (out ++ [base64EncodeValue ((c &&& 0xfc) >>> 2)]) := by
  obtain ⟨hhigh, hlow, -⟩ := byte_masks c
  have hc := c.toNat_lt
  have hat : stepAfter seen.length = .A := (stepAfter_eq _).1.mpr hstep
  have hnext : stepAfter (seen.length + 1) = .B := (stepAfter_eq _).2.1.mpr (by omega)
  obtain ⟨x, hx, -⟩ := h.holds
  have hchar := sextets_encodeValue (v := (c &&& 0xfc) >>> 2) (by omega)
  refine h.more [c.toNat / 2 ^ 2] 2 x (by rw [hnext]; rfl) ?_ hx (by rw [hchar.1, hhigh]) hchar.2 ?_
    fun _ => hlow
  · have hcarry := carry 0 6 2 0 c.toNat hc
    rw [Nat.mul_zero, Nat.zero_add, Nat.zero_add] at hcarry
    rw [hat, spread_singleton]
    exact hcarry
  · rw [charsAfter, charsAfter, List.length_singleton]
    omega

/-- The second byte of a group. -/
theorem Encoded.byteB (h : Encoded seen result out) (hstep : seen.length % 3 = 1) (c : UInt8) :
    Encoded (seen ++ [c]) ((c &&& 0x0f) <<< 2)
      (out ++ [base64EncodeValue (result ||| ((c &&& 0xf0) >>> 4))]) := by
  obtain ⟨-, -, hhigh, hlow, -⟩ := byte_masks c
  have hc := c.toNat_lt
  have hat : stepAfter seen.length = .B := (stepAfter_eq _).2.1.mpr hstep
  have hnext : stepAfter (seen.length + 1) = .C := (stepAfter_eq _).2.2.mpr (by omega)
  obtain ⟨x, hx, hres⟩ := h.holds
  rw [hat] at hx hres
  obtain ⟨hresult, hx2⟩ : result.toNat = 2 ^ 4 * x ∧ x < 2 ^ 2 := hres (by decide)
  have hdigit : (result ||| ((c &&& 0xf0) >>> 4)).toNat = 2 ^ 4 * x + c.toNat / 2 ^ 4 := by
    rw [or_toNat hresult (by omega), hhigh]
  have hchar := sextets_encodeValue (v := result ||| ((c &&& 0xf0) >>> 4)) (by omega)
  refine h.more [2 ^ 4 * x + c.toNat / 2 ^ 4] 4 x (by rw [hnext]; rfl) ?_ (by rw [hat]; exact hx)
    (by rw [hchar.1, hdigit]) hchar.2 ?_ fun _ => hlow
  · rw [hat, spread_singleton]
    exact carry 2 4 4 x c.toNat hc
  · rw [charsAfter, charsAfter, List.length_singleton]
    omega

/-- The third byte of a group, with the end of a line behind it or not. -/
theorem Encoded.byteC (h : Encoded seen result out) (hstep : seen.length % 3 = 2) (c : UInt8)
    {result' : UInt8} {line : Bytes} (hline : sextets line = [] ∧ 123 ∉ line)
    (hlen : (seen.length + 1) / 54 = seen.length / 54 + line.length) :
    Encoded (seen ++ [c]) result' (out ++ ([base64EncodeValue (result ||| ((c &&& 0xc0) >>> 6)),
      base64EncodeValue (c &&& 0x3f)] ++ line)) := by
  obtain ⟨-, -, -, -, hhigh, hlow⟩ := byte_masks c
  have hc := c.toNat_lt
  have hat : stepAfter seen.length = .C := (stepAfter_eq _).2.2.mpr hstep
  have hnext : stepAfter (seen.length + 1) = .A := (stepAfter_eq _).1.mpr (by omega)
  obtain ⟨x, hx, hres⟩ := h.holds
  rw [hat] at hx hres
  -- `result` has four bits from the byte before, at their place in a digit
  obtain ⟨hresult, hx4⟩ : result.toNat = 2 ^ 2 * x ∧ x < 2 ^ 4 := hres (by decide)
  have hdigit : (result ||| ((c &&& 0xc0) >>> 6)).toNat = 2 ^ 2 * x + c.toNat / 2 ^ 6 := by
    rw [or_toNat hresult (by omega), hhigh]
  have hfirst := sextets_encodeValue (v := result ||| ((c &&& 0xc0) >>> 6)) (by omega)
  have hsecond := sextets_encodeValue (v := c &&& 0x3f) (by omega)
  -- they and the upper two bits of the byte are a digit, and the lower six another one
  have hchars : sextets ([base64EncodeValue (result ||| ((c &&& 0xc0) >>> 6)),
      base64EncodeValue (c &&& 0x3f)] ++ line) = [2 ^ 2 * x + c.toNat / 2 ^ 6, c.toNat % 2 ^ 6] := by
    rw [sextets_append, hline.1, List.append_nil, ← List.singleton_append, sextets_append, hfirst.1,
      hsecond.1, hdigit, hlow]
    rfl
  refine h.more [2 ^ 2 * x + c.toNat / 2 ^ 6, c.toNat % 2 ^ 6] 0 x (by rw [hnext]; rfl) ?_
    (by rw [hat]; exact hx) hchars ?_ ?_ fun hne => absurd hnext hne
  · rw [hat, spread_cons, spread_singleton, bits_zero, List.append_nil]
    exact carry 4 2 6 x c.toNat hc
  · -- no character of the encoder is the brace
    intro hmem
    rcases List.mem_append.mp hmem with hmem | hmem
    · rcases List.mem_cons.mp hmem with heq | hmem
      · exact hfirst.2 (List.mem_singleton.mpr heq)
      · exact hsecond.2 hmem
    · exact hline.2 hmem
  · rw [charsAfter, charsAfter, List.length_append, hlen]
    simp only [List.length_cons, List.length_nil]
    omega

/-- What must be free for a step to go on: `out_pos + ahead < out_end`. -/
def EncodeStep.ahead : EncodeStep → Nat
  | .C => 2
  | _ => 0

/-- What the loop does with the byte `c`: it returns in front of it for lack of room, or goes on
behind it. -/
def Advances (outLen : Nat) (seen : Bytes) (state : EncodeState) (result : UInt8) (out : Bytes)
    (c : UInt8) (rest : Bytes) : Prop :=
  (base64EncodeBlock outLen state (stepAfter seen.length) result out (c :: rest) =
      (out, { state with result := result, step := stepAfter seen.length }) ∧
    outLen ≤ out.length + (stepAfter seen.length).ahead) ∨
  ∃ result' out' state',
    base64EncodeBlock outLen state (stepAfter seen.length) result out (c :: rest) =
      base64EncodeBlock outLen state' (stepAfter (seen ++ [c]).length) result' out' rest ∧
    Encoded (seen ++ [c]) result' out' ∧ state'.stepcount = (seen ++ [c]).length / 3 % 18 ∧
    out'.length ≤ outLen

section Advance

variable {state : EncodeState} (h : Encoded seen result out)
  (hcount : state.stepcount = seen.length / 3 % 18) (c : UInt8) (rest : Bytes)

include h hcount in
/-- The first step writes a character and keeps two bits. -/
theorem Encoded.advancesA (hmod : seen.length % 3 = 0) :
    Advances outLen seen state result out c rest := by
  have hone : (seen ++ [c]).length = seen.length + 1 := by simp
  have hat : stepAfter seen.length = .A := (stepAfter_eq _).1.mpr hmod
  have hnext : stepAfter (seen ++ [c]).length = .B := by
    rw [hone, (stepAfter_eq _).2.1.mpr (by omega)]
  rw [Advances, hat, hnext]
  by_cases hfull : out.length ≥ outLen
  · exact .inl ⟨by rw [base64EncodeBlock, if_pos hfull], hfull⟩
  · refine .inr ⟨_, _, state, by rw [base64EncodeBlock, if_neg hfull], h.byteA hmod c, ?_, ?_⟩
    · rw [hcount, hone]
      omega
    · rw [List.length_append, List.length_singleton]
      omega

include h hcount in
/-- The second writes a character and keeps four bits. -/
theorem Encoded.advancesB (hmod : seen.length % 3 = 1) :
    Advances outLen seen state result out c rest := by
  have hone : (seen ++ [c]).length = seen.length + 1 := by simp
  have hat : stepAfter seen.length = .B := (stepAfter_eq _).2.1.mpr hmod
  have hnext : stepAfter (seen ++ [c]).length = .C := by
    rw [hone, (stepAfter_eq _).2.2.mpr (by omega)]
  rw [Advances, hat, hnext]
  by_cases hfull : out.length ≥ outLen
  · exact .inl ⟨by rw [base64EncodeBlock, if_pos hfull], hfull⟩
  · refine .inr ⟨_, _, state, by rw [base64EncodeBlock, if_neg hfull], h.byteB hmod c, ?_, ?_⟩
    · rw [hcount, hone]
      omega
    · rw [List.length_append, List.length_singleton]
      omega

/-- With room for three characters the third step writes its two, and at the end of a line the
newline: the check in front of that does not fail. -/
theorem base64EncodeBlock_C (hroom : ¬ out.length + 2 ≥ outLen) :
    base64EncodeBlock outLen state .C result out (c :: rest) =
      if (state.stepcount + 1) * 4 = charsPerLine then
        base64EncodeBlock outLen { state with stepcount := 0 } .A (c &&& 0x3f)
          (out ++ ([base64EncodeValue (result ||| ((c &&& 0xc0) >>> 6)),
            base64EncodeValue (c &&& 0x3f)] ++ [10])) rest
      else
        base64EncodeBlock outLen { state with stepcount := state.stepcount + 1 } .A (c &&& 0x3f)
          (out ++ ([base64EncodeValue (result ||| ((c &&& 0xc0) >>> 6)),
            base64EncodeValue (c &&& 0x3f)] ++ [])) rest := by
  rw [base64EncodeBlock, if_neg hroom]
  dsimp only
  by_cases hline : (state.stepcount + 1) * 4 = charsPerLine
  · have hnewline : ¬ (out ++ [base64EncodeValue (result ||| ((c &&& 0xc0) >>> 6))] ++
        [base64EncodeValue (c &&& 0x3f)]).length ≥ outLen := by
      simp only [List.length_append, List.length_singleton]
      omega
    rw [if_pos hline, if_pos hline, if_neg hnewline, List.append_assoc, List.append_assoc]
    rfl
  · rw [if_neg hline, if_neg hline, List.append_assoc, List.append_nil]
    rfl

include h hcount in
/-- The third writes two characters and, at the end of a line, a newline. -/
theorem Encoded.advancesC (hmod : seen.length % 3 = 2) :
    Advances outLen seen state result out c rest := by
  have hone : (seen ++ [c]).length = seen.length + 1 := by simp
  have hat : stepAfter seen.length = .C := (stepAfter_eq _).2.2.mpr hmod
  have hnext : stepAfter (seen ++ [c]).length = .A := by
    rw [hone, (stepAfter_eq _).1.mpr (by omega)]
  rw [Advances, hat, hnext]
  -- the last two characters of a group are written together or not at all
  by_cases hfull : out.length + 2 ≥ outLen
  · exact .inl ⟨by rw [base64EncodeBlock, if_pos hfull], hfull⟩
  · have hlen : ∀ line : Bytes, (out ++ ([base64EncodeValue (result ||| ((c &&& 0xc0) >>> 6)),
        base64EncodeValue (c &&& 0x3f)] ++ line)).length = out.length + 2 + line.length := by
      intro line
      simp only [List.length_append, List.length_cons, List.length_nil]
      omega
    have hgo : base64EncodeBlock outLen state .C result out (c :: rest) = _ :=
      base64EncodeBlock_C c rest hfull
    refine .inr ?_
    -- behind 72 digits there is a line break
    by_cases hline : (state.stepcount + 1) * 4 = charsPerLine
    · rw [if_pos hline] at hgo
      rw [charsPerLine] at hline
      refine ⟨_, _, _, hgo, h.byteC hmod c ⟨by decide +kernel, by decide⟩ ?_, ?_, ?_⟩
      · rw [List.length_singleton]
        omega
      · rw [hone]
        show 0 = _
        omega
      · rw [hlen, List.length_singleton]
        omega
    · rw [if_neg hline] at hgo
      rw [charsPerLine] at hline
      refine ⟨_, _, _, hgo, h.byteC hmod c ⟨rfl, List.not_mem_nil⟩ ?_, ?_, ?_⟩
      · rw [List.length_nil]
        omega
      · rw [hone]
        show state.stepcount + 1 = _
        omega
      · rw [hlen, List.length_nil]
        omega

include h hcount in
/-- **A byte**: the loop returns in front of it, or goes on behind it with the invariant kept.  One
lemma for each of the three steps, and the invariant says where the next one begins. -/
theorem Encoded.advances : Advances outLen seen state result out c rest := by
  rcases (by omega : seen.length % 3 = 0 ∨ seen.length % 3 = 1 ∨ seen.length % 3 = 2) with
    hmod | hmod | hmod
  · exact h.advancesA hcount c rest hmod
  · exact h.advancesB hcount c rest hmod
  · exact h.advancesC hcount c rest hmod

end Advance

/-- **The loop** takes a beginning of the input: all of it, where there is room.  By induction on
the input; a byte for which there is no room ends it. -/
theorem Encoded.block (input : Bytes) {state : EncodeState} (h : Encoded seen result out)
    (hcount : state.stepcount = seen.length / 3 % 18) (hout : out.length ≤ outLen) :
    ∃ front out' state',
      base64EncodeBlock outLen state (stepAfter seen.length) result out input = (out', state') ∧
      front <+: input ∧ Encoded (seen ++ front) state'.result out' ∧
      state'.step = stepAfter (seen ++ front).length ∧ out'.length ≤ outLen ∧
      (front = input ∨ outLen ≤ out'.length + state'.step.ahead) := by
  induction input generalizing seen result out state with
  | nil =>
    exact ⟨[], out, _, by rw [base64EncodeBlock], List.nil_prefix, by simpa using h, by simp, hout,
      .inl rfl⟩
  | cons c rest ih =>
    have hstep : Advances outLen seen state result out c rest := h.advances hcount c rest
    rcases hstep with ⟨hreturn, hfull⟩ | ⟨result', out₁, state₁, hgo, henc, hcount', hout'⟩
    · -- a return leaves everything as it is
      exact ⟨[], out, _, hreturn, List.nil_prefix, by simpa using h, by simp, hout, .inr hfull⟩
    · -- a turn goes on with the rest
      obtain ⟨front, out', state', heq, hpre, henc', hstep', hlen', hor⟩ := ih henc hcount' hout'
      have hseen : seen ++ c :: front = seen ++ [c] ++ front := by rw [List.append_assoc]; rfl
      refine ⟨c :: front, out', state', by rw [hgo, heq],
        List.cons_prefix_cons.mpr ⟨rfl, hpre⟩, by rwa [hseen], by rwa [hseen], hlen', ?_⟩
      exact hor.imp_left fun he => by rw [he]

/-- A last character has the kept bits at its upper end. -/
theorem Encoded.last {k : Nat} {pads : Bytes} (h : Encoded seen result out) (hk : k ≤ 4)
    (hkept : (stepAfter seen.length).kept = k) (hstep : stepAfter seen.length ≠ .A)
    (hpads : sextets pads = []) :
    spread 6 (sextets (out ++ base64EncodeValue result :: pads)) =
      byteBits seen ++ bits (6 - k) 0 := by
  obtain ⟨x, hx, hres⟩ := h.holds
  obtain ⟨hresult, hlt⟩ := hres hstep
  rw [hkept] at hx hresult hlt
  have hpow : 2 ^ (6 - k) * x < 2 ^ (6 - k) * 2 ^ k :=
    Nat.mul_lt_mul_of_pos_left hlt (Nat.two_pow_pos _)
  rw [← Nat.pow_add, Nat.sub_add_cancel (by omega)] at hpow
  have hchar := (sextets_encodeValue (v := result) (by omega)).1
  have hsplit := bits_append k (6 - k) x (Nat.two_pow_pos (6 - k))
  rw [Nat.add_sub_cancel' (by omega : k ≤ 6), Nat.add_zero] at hsplit
  rw [← List.singleton_append, sextets_append, sextets_append, hchar, hpads, List.append_nil,
    spread_append, spread_singleton, hx, hresult, hsplit, List.append_assoc]

/-- How many characters the ending has. -/
def EncodeStep.ending : EncodeStep → Nat
  | .A => 0
  | .B => 3
  | .C => 2

/-- The byte that ends a string is written only where it fits. -/
theorem room_for_end {n room : Nat} (h : n ≤ room) :
    (n + if decide (n < room) then 1 else 0) ≤ room := by
  by_cases hlt : n < room
  · rw [if_pos (decide_eq_true hlt)]
    exact hlt
  · rw [if_neg (by simpa using hlt)]
    exact h

/-- **The ending** writes what is kept, or nothing. -/
theorem Encoded.blockend {state : EncodeState} (h : Encoded seen state.result out)
    (hstep : state.step = stepAfter seen.length) (room : Nat) :
    ∃ chars terminated, base64EncodeBlockend room state = (chars, terminated) ∧
      (chars.length + if terminated then 1 else 0) ≤ room ∧ 123 ∉ chars ∧
      ∃ t : List Bool, t.length < 8 ∧ spread 6 (sextets (out ++ chars)) <+: byteBits seen ++ t ∧
        (state.step.ending < room → terminated = true ∧ chars.length = state.step.ending ∧
          spread 6 (sextets (out ++ chars)) = byteBits seen ++ t) := by
  -- no room: the kept bits are lost
  have hlost : ∃ t : List Bool, t.length < 8 ∧
      spread 6 (sextets (out ++ [])) <+: byteBits seen ++ t := by
    obtain ⟨x, hx, -⟩ := h.holds
    refine ⟨[], by decide, ?_⟩
    rw [List.append_nil, List.append_nil, hx]
    exact List.prefix_append _ _
  have hvalue : 123 ∉ [base64EncodeValue state.result] := by
    intro hmem
    have hvalues : ∀ v : UInt8, base64EncodeValue v ≠ 123 := forall_byte (by decide +kernel)
    exact hvalues _ (List.mem_singleton.mp hmem).symm
  have hwhole : ∀ {k : Nat} {pads : Bytes}, k ≤ 4 → (stepAfter seen.length).kept = k →
      stepAfter seen.length ≠ .A → pads = [61] ∨ pads = [61, 61] →
      123 ∉ base64EncodeValue state.result :: pads ∧ ∃ t : List Bool, t.length < 8 ∧
        spread 6 (sextets (out ++ base64EncodeValue state.result :: pads)) = byteBits seen ++ t := by
    intro k pads hk hkept hne hpads
    have hnone : sextets pads = [] ∧ 123 ∉ pads := by
      rcases hpads with rfl | rfl <;> decide +kernel
    refine ⟨?_, bits (6 - k) 0, by rw [bits_length]; omega, h.last hk hkept hne hnone.1⟩
    exact fun hmem => (List.mem_cons.mp hmem).elim
      (fun he => hvalue (List.mem_singleton.mpr he)) hnone.2
  cases hs : state.step with
  | A =>
    obtain ⟨x, hx, -⟩ := h.holds
    rw [← hstep, hs] at hx
    refine ⟨[], decide (0 < room), by rw [base64EncodeBlockend, hs], ?_, List.not_mem_nil, [],
      by decide, ?_, fun hroom => ⟨decide_eq_true hroom, rfl, ?_⟩⟩
    · exact room_for_end (Nat.zero_le room)
    · rw [List.append_nil, List.append_nil, hx]
      exact List.prefix_append _ _
    · rw [List.append_nil, List.append_nil, hx]
      exact (List.append_nil _).symm
  | B =>
    obtain ⟨hplain, t, ht, hspread⟩ := hwhole (k := 2) (by decide) (by rw [← hstep, hs]; rfl)
      (by rw [← hstep, hs]; decide) (.inr rfl)
    by_cases hroom : 2 ≥ room
    · obtain ⟨t', ht', hpre⟩ := hlost
      refine ⟨[], false, by rw [base64EncodeBlockend, hs]; exact if_pos hroom, Nat.zero_le _,
        List.not_mem_nil, t', ht', hpre, fun hend => ?_⟩
      have hend' : 3 < room := hend
      omega
    · refine ⟨_, _, by rw [base64EncodeBlockend, hs]; exact if_neg hroom, ?_, hplain, t, ht,
        by rw [hspread], fun hend => ⟨decide_eq_true hend, rfl, hspread⟩⟩
      exact room_for_end (show 3 ≤ room by omega)
  | C =>
    obtain ⟨hplain, t, ht, hspread⟩ := hwhole (k := 4) (by decide) (by rw [← hstep, hs]; rfl)
      (by rw [← hstep, hs]; decide) (.inl rfl)
    by_cases hroom : 1 ≥ room
    · obtain ⟨t', ht', hpre⟩ := hlost
      refine ⟨[], false, by rw [base64EncodeBlockend, hs]; exact if_pos hroom, Nat.zero_le _,
        List.not_mem_nil, t', ht', hpre, fun hend => ?_⟩
      have hend' : 2 < room := hend
      omega
    · refine ⟨_, _, by rw [base64EncodeBlockend, hs]; exact if_neg hroom, ?_, hplain, t, ht,
        by rw [hspread], fun hend => ⟨decide_eq_true hend, rfl, hspread⟩⟩
      exact room_for_end (show 2 ≤ room by omega)

end Encode

/-- How many characters a text has. -/
def textLength (n : Nat) : Nat := 4 * ((n + 2) / 3) + n / 54

/-- Room for all the characters of an input, and for the byte that ends a string. -/
def RoomFor (n outLen : Nat) : Prop := textLength n < outLen

/-- **What `base64_encode` does with any input and any buffer.**  It stays inside the buffer, and
the digits it writes are the bits of a beginning of the input: of all of it, where there is room.
Padding and line breaks are no digits, so they are not in the statement: the digits of the text are
what counts. -/
theorem base64Encode_spec (inBin : Bytes) (outLen : Nat) :
    ∃ text terminated, base64Encode inBin outLen = (text, terminated) ∧
      (text.length + if terminated then 1 else 0) ≤ outLen ∧ 123 ∉ text ∧
      ∃ (front : Bytes) (t : List Bool), front <+: inBin ∧ t.length < 8 ∧
        spread 6 (sextets text) <+: byteBits front ++ t ∧
        (RoomFor inBin.length outLen → terminated = true ∧ text.length = textLength inBin.length ∧
          spread 6 (sextets text) = byteBits inBin ++ t) := by
  have hstart : Encoded [] 0 [] := ⟨⟨0, rfl, fun hne => absurd rfl hne⟩, rfl, List.not_mem_nil⟩
  obtain ⟨front, out, state, hblock, hfront, henc, hstep, hout, hor⟩ :=
    @Encoded.block [] [] 0 outLen inBin encodeStateInit hstart rfl (Nat.zero_le _)
  rw [List.nil_append] at henc hstep
  obtain ⟨chars, terminated, hend, hfits, hplain, t, ht, hpre, hroom⟩ :=
    henc.blockend hstep (outLen - out.length)
  have hrun : base64Encode inBin outLen = (out ++ chars, terminated) := by
    have hb : base64EncodeBlock outLen encodeStateInit .A 0 [] inBin = (out, state) := hblock
    rw [base64Encode, hb, hend]
  refine ⟨_, _, hrun, by rw [List.length_append]; omega,
    fun hmem => (List.mem_append.mp hmem).elim henc.plain hplain, front, t, hfront, ht, hpre,
    fun hfor => ?_⟩
  rw [RoomFor, textLength] at hfor
  have hlen := henc.length
  have hle := hfront.length_le
  rw [charsAfter] at hlen
  have hmod := stepAfter_eq front.length
  have hthree : front.length % 3 = 0 ∨ front.length % 3 = 1 ∨ front.length % 3 = 2 := by omega
  -- with that much room nothing stops the loop before the end
  have hall : front = inBin := by
    by_contra hne
    have hlt : front.length < inBin.length :=
      Nat.lt_of_le_of_ne hle fun heq => hne (hfront.eq_of_length heq)
    have hfull := hor.resolve_left hne
    rw [hstep] at hfull
    rcases hthree with h | h | h
    · rw [hmod.1.mpr h, EncodeStep.ahead] at hfull
      · omega
      · exact fun he => by cases he
    · rw [hmod.2.1.mpr h, EncodeStep.ahead] at hfull
      · omega
      · exact fun he => by cases he
    · rw [hmod.2.2.mpr h, EncodeStep.ahead] at hfull
      omega
  subst hall
  -- the ending makes a whole group
  have hending : charsAfter front.length + state.step.ending = textLength front.length := by
    rw [hstep, charsAfter, textLength]
    rcases hthree with h | h | h
    · rw [hmod.1.mpr h, EncodeStep.ending]
      omega
    · rw [hmod.2.1.mpr h, EncodeStep.ending]
      omega
    · rw [hmod.2.2.mpr h, EncodeStep.ending]
      omega
  rw [charsAfter, textLength] at hending
  obtain ⟨hterm, hchars, hspread⟩ := hroom (by omega)
  refine ⟨hterm, ?_, hspread⟩
  rw [List.length_append, textLength]
  omega

/-! ## §6 — whole buffers.

The end of the input: padding, a line break, and the zero byte, each only if there is room for it. -/

/-- **What decoding into a whole buffer takes.**  It is defined exactly for the texts without `{`
whose bytes leave one byte of the buffer free; then the bytes are the bits of the digits, and one
byte more at most is written.  The brace is the one character above the table that the check of the
source lets through, so it indexes the table at its end.  The one byte more is written before the
digits say whether it belongs to the output. -/
theorem base64Decode_defined_iff (text mem : Bytes) :
    ((base64Decode text mem mem.length).isSome ↔
      123 ∉ text ∧ 6 * (sextets text).length / 8 < mem.length) ∧
    ∀ mem' len, base64Decode text mem mem.length = some (mem', len) →
      len = 6 * (sextets text).length / 8 ∧ mem'.length = mem.length ∧
      byteBits (mem'.take len) <+: spread 6 (sextets text) ∧
      mem'.drop (len + 1) = mem.drop (len + 1) := by
  by_cases hmem : 0 < mem.length
  · obtain ⟨hdefined, hresult⟩ := base64Decode_spec text hmem (Nat.le_refl _)
    -- with a whole buffer there is one bound, and a brace would have to come where the buffer is
    -- full
    have hiff : (base64Decode text mem mem.length).isSome ↔
        123 ∉ text ∧ 6 * (sextets text).length / 8 < mem.length := by
      rw [hdefined]
      constructor
      · rintro ⟨hlt, hbrace⟩
        have hplain : 123 ∉ text := fun h => by
          have heq := hbrace h
          omega
        rw [decodedLength, plain_eq_self hplain] at hlt
        exact ⟨hplain, by omega⟩
      · rintro ⟨hplain, hlt⟩
        rw [decodedLength, plain_eq_self hplain]
        exact ⟨by omega, fun h => absurd h hplain⟩
    refine ⟨hiff, fun mem' len h => ?_⟩
    obtain ⟨hlen, hrest⟩ := hresult mem' len h
    obtain ⟨hplain, hlt⟩ := hiff.mp (by rw [h]; rfl)
    rw [plain_eq_self hplain] at hrest
    rw [decodedLength, plain_eq_self hplain] at hlen
    exact ⟨by omega, hrest⟩
  · -- the very first store is outside of an empty buffer
    have hnone : base64Decode text mem mem.length = none := by
      rw [base64Decode, base64DecodeBlock, store, if_neg hmem]
      rfl
    rw [hnone]
    exact ⟨⟨fun h => absurd h Bool.false_ne_true, fun h => by omega⟩, fun _ _ h => by cases h⟩


/-! ## §7 — there and back. -/

/-- `base64_bufsize` is room enough. -/
theorem base64Bufsize_room {n size : Nat} (h : base64Bufsize n = some size) : RoomFor n size := by
  rw [base64Bufsize] at h
  by_cases hint : n * 4 < 2 ^ 31
  · rw [guard, if_pos hint] at h
    have hsize : size = n * 4 / 3 + 4 + (n * 4 / 3 + 4 + charsPerLine - 1) / charsPerLine :=
      (Option.some.inj h).symm
    rw [RoomFor, textLength, hsize, charsPerLine]
    omega
  · rw [guard, if_neg hint] at h
    cases h

/-- **Decoding what was encoded into a buffer of any size gives a beginning of the input**: neither
of the two goes outside, and a buffer that is too short costs only the end.  Both loops work on
blocks, and stop in the middle of one when the buffer is full; so the statement is about the bits
(`TarantoolC.Regroup`), of which a prefix survives, and not about blocks. -/
theorem base64_any_room (inBin mem : Bytes) (outLen : Nat) :
    ∃ text terminated, base64Encode inBin outLen = (text, terminated) ∧
      (text.length + if terminated then 1 else 0) ≤ outLen ∧
      (6 * text.length / 8 < mem.length → ∃ mem' len,
        base64Decode text mem mem.length = some (mem', len) ∧ mem'.take len <+: inBin) := by
  obtain ⟨text, terminated, hrun, hfits, hplain, front, t, hfront, ht, hpre, -⟩ :=
    base64Encode_spec inBin outLen
  refine ⟨text, terminated, hrun, hfits, fun hmem => ?_⟩
  have hcount : (sextets text).length ≤ text.length := List.length_filterMap_le _ _
  have hlen : decodedLength mem.length text < mem.length := by
    rw [decodedLength, plain_eq_self hplain]
    omega
  obtain ⟨hdefined, hresult⟩ := base64Decode_spec text (by omega : 0 < mem.length) (Nat.le_refl _)
  have hsome := hdefined.mpr ⟨hlen, fun h => absurd h hplain⟩
  obtain ⟨⟨mem', len⟩, hdec⟩ := Option.isSome_iff_exists.mp hsome
  obtain ⟨-, -, hbits, -⟩ := hresult mem' len hdec
  rw [plain_eq_self hplain] at hbits
  exact ⟨mem', len, hdec, (prefix_of_byteBits ht (hbits.trans hpre)).trans hfront⟩

/-- A text that spells bytes: the bits of its digits are theirs, and fewer than eight more. -/
def Spells (text bs : Bytes) : Prop :=
  123 ∉ text ∧ ∃ t : List Bool, t.length < 8 ∧ spread 6 (sextets text) = byteBits bs ++ t

/-- What is encoded, with room, spells the input. -/
theorem base64Encode_spells {inBin : Bytes} {outLen : Nat} (h : RoomFor inBin.length outLen) :
    ∃ text, base64Encode inBin outLen = (text, true) ∧ text.length = textLength inBin.length ∧
      Spells text inBin := by
  obtain ⟨text, terminated, hrun, -, hplain, front, t, -, ht, -, hroom⟩ :=
    base64Encode_spec inBin outLen
  obtain ⟨rfl, hlen, hspread⟩ := hroom h
  exact ⟨text, hrun, hlen, hplain, t, ht, hspread⟩

/-- What spells bytes is decoded as them, in any buffer with a byte to spare. -/
theorem Spells.decode {text bs : Bytes} (h : Spells text bs) {mem : Bytes}
    (hmem : bs.length < mem.length) :
    ∃ mem', base64Decode text mem mem.length = some (mem', bs.length) ∧ mem'.length = mem.length ∧
      mem'.take bs.length = bs ∧ mem'.drop (bs.length + 1) = mem.drop (bs.length + 1) := by
  obtain ⟨hplain, t, ht, hspread⟩ := h
  have hbits := congrArg List.length hspread
  rw [spread_length, List.length_append, byteBits_length] at hbits
  have hlen : decodedLength mem.length text = bs.length := by
    rw [decodedLength, plain_eq_self hplain]
    omega
  obtain ⟨hdefined, hresult⟩ := base64Decode_spec text (by omega : 0 < mem.length) (Nat.le_refl _)
  obtain ⟨⟨mem', len⟩, hdec⟩ := Option.isSome_iff_exists.mp
    (hdefined.mpr ⟨by omega, fun h => absurd h hplain⟩)
  obtain ⟨heq, hmem', hcut, hframe⟩ := hresult mem' len hdec
  rw [hlen] at heq
  subst heq
  rw [plain_eq_self hplain, hspread] at hcut
  have hfirst : mem'.take bs.length <+: bs := prefix_of_byteBits ht hcut
  refine ⟨mem', hdec, hmem', hfirst.eq_of_length ?_, hframe⟩
  rw [List.length_take, hmem']
  omega

/-- **The round trip.**  With a buffer of `base64_bufsize` the text is whole and ends as a string,
and decoding it into any buffer with a byte to spare gives the input back, for inputs of every
length.  The two loops cut their input differently, in threes and in fours, and the encoder puts a
line break behind every 72 digits that the decoder has to pass over.  What both say of the bits is
the same, and the padding brings in none. -/
theorem base64_round_trip {inBin : Bytes} {size : Nat} (hsize : base64Bufsize inBin.length = some size)
    {mem : Bytes} (hmem : inBin.length < mem.length) :
    ∃ text mem', base64Encode inBin size = (text, true) ∧ text.length < size ∧
      base64Decode text mem mem.length = some (mem', inBin.length) ∧
      mem'.take inBin.length = inBin ∧ mem'.drop (inBin.length + 1) = mem.drop (inBin.length + 1) := by
  have hroom := base64Bufsize_room hsize
  obtain ⟨text, hrun, hlen, hspells⟩ := base64Encode_spells hroom
  obtain ⟨mem', hdec, -, hfirst, hframe⟩ := hspells.decode hmem
  exact ⟨text, mem', hrun, by rw [hlen]; exact hroom, hdec, hfirst, hframe⟩

/-- The five bytes of `Hello`, there and back. -/
theorem base64_round_trip_hello :
    ∃ text mem', base64Encode [72, 101, 108, 108, 111] 11 = (text, true) ∧ text.length < 11 ∧
      base64Decode text (List.replicate 8 0) 8 = some (mem', 5) ∧
      mem'.take 5 = [72, 101, 108, 108, 111] ∧ mem'.drop 6 = (List.replicate 8 0).drop 6 :=
  @base64_round_trip [72, 101, 108, 108, 111] 11 (by decide) (List.replicate 8 0) (by decide)

/-- The text `SGVsbG8=`. -/
example : (base64Encode [72, 101, 108, 108, 111] 11).1 = [83, 71, 86, 115, 98, 71, 56, 61] := by
  decide +kernel

end TarantoolC.Base64
