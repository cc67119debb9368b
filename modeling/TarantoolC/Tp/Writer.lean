/-
# TarantoolC.Tp.Writer — the request writer of the header-only client (`include/tp.h`).

`struct tp` is a window of memory `s .. e` with a position `p` up to which requests have been
written, and two pointers into the last request: to its length field and to its sync.  Every
function makes room (`tp_ensure`, which may MOVE the window), encodes at `p`, and lets `tp_add` move
`p` and write the length of the request again.

Pointers are addresses here, so that a moved window is a moved window; a store outside it is
undefined (`none`), and so is what runs into an `assert`.  Sizes are `int` in the source and natural
numbers here, which is the same for the texts `TpStr` admits.  A store through a `uint32_t *` is of
what `mp_bswap_u32` made of the number: its bytes in big-endian order.

Two things of C are left out.  `tp_ensure` returns an `ssize_t`; its callers compare it with -1 and
nothing else, so the result is an `Int` here and does not wrap around, as it cannot for blocks
shorter than `2^63` bytes.  And a reserve callback is a function of the request it gets: what it
answers may be different at every call, but not depend on anything else.

The request functions share their course, and so do the appending ones.  `tpRequest` and `tpAppend`
are these courses, with the sizes and the encodings of a function as arguments; each function keeps
its own name and its own arguments.
-/
import TarantoolC.Msgpuck
import TarantoolC.Buf

namespace TarantoolC

open MsgPack

/-! ## §1 — what is used of msgpuck besides. -/

/-- The msgpuck functions that measure, and those that copy a string behind its header. -/
class Mpsize extends Msgpuck where
  mpSizeofNil : Nat
  mpSizeofUint : UInt64 → Nat
  mpSizeofInt : Int64 → Nat
  mpSizeofStr : UInt32 → Nat
  mpSizeofBin : UInt32 → Nat
  mpSizeofBool : Bool → Nat
  mpSizeofFloat : UInt32 → Nat
  mpSizeofDouble : UInt64 → Nat
  mpEncodeStr : Bytes → Bytes
  mpEncodeBin : Bytes → Bytes
  mpSizeofNil_eq : mpSizeofNil = 1
  mpSizeofUint_eq : ∀ n, mpSizeofUint n = (uintForm.min n.toNat).length
  -- `mp_sizeof_int` asserts that its argument is negative
  mpSizeofInt_eq : ∀ z, z.toInt < 0 → mpSizeofInt z = (negBytes z.toInt).length
  mpSizeofStr_eq : ∀ n, mpSizeofStr n = (strForm.min n.toNat).length + n.toNat
  mpSizeofBin_eq : ∀ n, mpSizeofBin n = (binForm.min n.toNat).length + n.toNat
  mpSizeofBool_eq : ∀ b, mpSizeofBool b = 1
  mpSizeofFloat_eq : ∀ bits, mpSizeofFloat bits = 5
  mpSizeofDouble_eq : ∀ bits, mpSizeofDouble bits = 9
  mpEncodeStr_eq : ∀ s, s.length < 2 ^ 32 → mpEncodeStr s = strForm.min s.length ++ s
  mpEncodeBin_eq : ∀ s, s.length < 2 ^ 32 → mpEncodeBin s = binForm.min s.length ++ s

namespace Mpsize

attribute [simp] mpSizeofNil_eq mpSizeofUint_eq mpSizeofStr_eq mpSizeofBin_eq mpSizeofBool_eq
  mpSizeofFloat_eq mpSizeofDouble_eq

/-- ... as the format has them. -/
@[reducible] def reference : Mpsize where
  toMsgpuck := Msgpuck.reference
  mpSizeofNil := 1
  mpSizeofUint n := (uintForm.min n.toNat).length
  mpSizeofInt z := (negBytes z.toInt).length
  mpSizeofStr n := (strForm.min n.toNat).length + n.toNat
  mpSizeofBin n := (binForm.min n.toNat).length + n.toNat
  mpSizeofBool _ := 1
  mpSizeofFloat _ := 5
  mpSizeofDouble _ := 9
  mpEncodeStr s := strForm.min s.length ++ s
  mpEncodeBin s := binForm.min s.length ++ s
  mpSizeofNil_eq := rfl
  mpSizeofUint_eq _ := rfl
  mpSizeofInt_eq _ _ := rfl
  mpSizeofStr_eq _ := rfl
  mpSizeofBin_eq _ := rfl
  mpSizeofBool_eq _ := rfl
  mpSizeofFloat_eq _ := rfl
  mpSizeofDouble_eq _ := rfl
  mpEncodeStr_eq _ _ := rfl
  mpEncodeBin_eq _ _ := rfl

end Mpsize

/-- `struct tp` with the memory it points to, `s .. e`; `none` is `NULL`. -/
structure Tp where
  s : Nat
  p : Nat
  e : Nat
  size : Option Nat
  sync : Option Nat
  mem : Bytes
  deriving Repr, DecidableEq

namespace Tp

open Msgpuck Mpsize

/-! ## §2 — constants. -/

/-- `enum tp_header_key_t`. -/
inductive HeaderKey where
  | code | sync
  deriving Repr, DecidableEq

def HeaderKey.num : HeaderKey → UInt64
  | .code => 0x00
  | .sync => 0x01

/-- `enum tp_body_key_t`, as far as requests use it. -/
inductive BodyKey where
  | space | index | limit | offset | iterator | key | tuple | function | username | expression
  deriving Repr, DecidableEq

def BodyKey.num : BodyKey → UInt64
  | .space => 0x10
  | .index => 0x11
  | .limit => 0x12
  | .offset => 0x13
  | .iterator => 0x14
  | .key => 0x20
  | .tuple => 0x21
  | .function => 0x22
  | .username => 0x23
  | .expression => 0x27

/-- `enum tp_request_type`, as far as there are functions for it. -/
inductive RequestType where
  | select | insert | replace | update | delete | call | auth | eval | ping
  deriving Repr, DecidableEq

def RequestType.num : RequestType → UInt64
  | .select => 1
  | .insert => 2
  | .replace => 3
  | .update => 4
  | .delete => 5
  | .call => 6
  | .auth => 7
  | .eval => 8
  | .ping => 64

/-! ## §3 — the window. -/

/-- `tp_init`, with the address and the contents of the buffer. -/
def tpInit (s : Nat) (buf : Bytes) : Tp where
  s := s
  p := s
  e := s + buf.length
  size := none
  sync := none
  mem := buf

/-- `tp_used`. -/
def tpUsed (t : Tp) : Nat := t.p - t.s

/-- `tp_unused`. -/
def tpUnused (t : Tp) : Nat := t.e - t.p

/-- The bytes `s .. p`. -/
def bytes (t : Tp) : Bytes := t.mem.take (tpUsed t)

/-- A reserve callback: the address and the contents of another block, or `NULL`. -/
abbrev Reserve := Tp → Nat → Option (Nat × Bytes)

/-- What a caller has to promise of it: room for the bytes that are required behind those in use,
which are kept. -/
def Reserve.Sound (R : Reserve) : Prop :=
  ∀ t n np block, tpUsed t ≤ t.mem.length → R t n = some (np, block) →
    tpUsed t + n ≤ block.length ∧ block.take (tpUsed t) = t.bytes

/-- `tp_ensure`; `none` for a buffer without a callback. -/
def tpEnsure (R : Option Reserve) (t : Tp) (size : Nat) : Int × Tp :=
  if tpUnused t ≥ size then (0, t)
  else
    match R with
    | none => (-1, t)
    | some reserve =>
      match reserve t size with
      | none => (-1, t)
      | some (np, block) =>
        (block.length,
          { s := np
            p := np + (t.p - t.s)
            e := np + block.length
            size := t.size.map fun a => np + (a - t.s)
            sync := t.sync.map fun a => np + (a - t.s)
            mem := block })

/-- A store at an address. -/
def store (t : Tp) (a : Nat) (bs : Bytes) : Option Tp :=
  if t.s ≤ a ∧ a - t.s + bs.length ≤ t.mem.length then
    some { t with mem := overwrite t.mem (a - t.s) bs }
  else none

/-- `h = mp_encode_x(h, …);`, one after the other. -/
def putAll (t : Tp) (h : Nat) : List Bytes → Option (Tp × Nat)
  | [] => some (t, h)
  | bs :: l => do
    let t ← t.store h bs
    putAll t (h + bs.length) l

/-- `tp_add`: the old position. -/
def tpAdd (t : Tp) (size : Nat) : Option (Nat × Tp) := do
  let ptr := t.p
  let t := { t with p := t.p + size }
  let a ← t.size
  let t ← t.store a [0xce]
  let t ← t.store (a + 1) (be 4 (t.p - a - 5))
  return (ptr, t)

/-- What a function returns: `NULL`, the place of what it has written, nothing. -/
inductive Ret where
  | null
  | ptr (a : Nat)
  | void
  deriving Repr, DecidableEq

/-- `tp_reqid`. -/
def tpReqid (t : Tp) (reqid : UInt32) : Option (Ret × Tp) := do
  let h ← t.sync
  let t ← t.store h [0xce]
  let t ← t.store (h + 1) (be 4 reqid.toNat)
  return (.void, t)

/-- A text, as long as the sizes computed from it fit an `int`. -/
structure TpStr where
  bytes : Bytes
  short : bytes.length < 2 ^ 31 - 64

def TpStr.len (s : TpStr) : UInt32 := UInt32.ofNat s.bytes.length

section Code

variable [Mpsize]

/-! ## §4 — requests. -/

/-- `tpi_sizeof_header`. -/
def tpiSizeofHeader (code : RequestType) : Nat :=
  5 + mpSizeofMap 2 + mpSizeofUint HeaderKey.code.num + mpSizeofUint code.num +
    mpSizeofUint HeaderKey.sync.num + 5

/-- The bytes of a header up to the sync. -/
def headFields (code : RequestType) : List Bytes :=
  [mpEncodeMap 2, mpEncodeUint HeaderKey.code.num, mpEncodeUint code.num,
    mpEncodeUint HeaderKey.sync.num]

/-- `tpi_encode_header`: the place behind the header. -/
def tpiEncodeHeader (t : Tp) (code : RequestType) : Option (Tp × Nat) := do
  let t := { t with size := some t.p }
  let (t, h) ← t.putAll (t.p + 5) (headFields code)
  let t := { t with sync := some h }
  let t ← t.store h [0xce]
  let t ← t.store (h + 1) [0, 0, 0, 0]
  return (t, h + 5)

/-- The course of a request function: `sz` is what it asks room for besides the header, `fields`
what it encodes behind it. -/
def tpRequest (R : Option Reserve) (t : Tp) (code : RequestType) (sz : Nat) (fields : List Bytes) :
    Option (Ret × Tp) :=
  let hsz := tpiSizeofHeader code
  let (rc, t) := tpEnsure R t (sz + hsz)
  if rc = -1 then some (.null, t)
  else do
    let (t, h) ← tpiEncodeHeader t code
    let (t, _) ← t.putAll h fields
    let (ptr, t) ← tpAdd t (sz + hsz)
    return (.ptr ptr, t)

/-- `tp_ping`. -/
def tpPing (R : Option Reserve) (t : Tp) : Option (Ret × Tp) :=
  tpRequest R t .ping (mpSizeofMap 0) [mpEncodeMap 0]

/-- `tp_select`. -/
def tpSelect (R : Option Reserve) (t : Tp) (space index offset iterator limit : UInt32) :
    Option (Ret × Tp) :=
  tpRequest R t .select
    (mpSizeofMap 6 +
      mpSizeofUint BodyKey.space.num + mpSizeofUint space.toUInt64 +
      mpSizeofUint BodyKey.index.num + mpSizeofUint index.toUInt64 +
      mpSizeofUint BodyKey.offset.num + mpSizeofUint offset.toUInt64 +
      mpSizeofUint BodyKey.limit.num + mpSizeofUint limit.toUInt64 +
      mpSizeofUint BodyKey.iterator.num + mpSizeofUint iterator.toUInt64 +
      mpSizeofUint BodyKey.key.num)
    [mpEncodeMap 6,
      mpEncodeUint BodyKey.space.num, mpEncodeUint space.toUInt64,
      mpEncodeUint BodyKey.index.num, mpEncodeUint index.toUInt64,
      mpEncodeUint BodyKey.offset.num, mpEncodeUint offset.toUInt64,
      mpEncodeUint BodyKey.limit.num, mpEncodeUint limit.toUInt64,
      mpEncodeUint BodyKey.iterator.num, mpEncodeUint iterator.toUInt64,
      mpEncodeUint BodyKey.key.num]

/-- `tpi_encode_store`. -/
def tpiEncodeStore (R : Option Reserve) (t : Tp) (type : RequestType) (space : UInt32) :
    Option (Ret × Tp) :=
  tpRequest R t type
    (mpSizeofMap 2 + mpSizeofUint BodyKey.space.num + mpSizeofUint space.toUInt64 +
      mpSizeofUint BodyKey.tuple.num)
    [mpEncodeMap 2, mpEncodeUint BodyKey.space.num, mpEncodeUint space.toUInt64,
      mpEncodeUint BodyKey.tuple.num]

/-- `tp_insert`. -/
def tpInsert (R : Option Reserve) (t : Tp) (space : UInt32) : Option (Ret × Tp) :=
  tpiEncodeStore R t .insert space

/-- `tp_replace`. -/
def tpReplace (R : Option Reserve) (t : Tp) (space : UInt32) : Option (Ret × Tp) :=
  tpiEncodeStore R t .replace space

/-- `tp_call`. -/
def tpCall (R : Option Reserve) (t : Tp) (function : TpStr) : Option (Ret × Tp) :=
  tpRequest R t .call
    (mpSizeofMap 2 + mpSizeofUint BodyKey.function.num + mpSizeofStr function.len +
      mpSizeofUint BodyKey.tuple.num)
    [mpEncodeMap 2, mpEncodeUint BodyKey.function.num, mpEncodeStr function.bytes,
      mpEncodeUint BodyKey.tuple.num]

/-- `tp_eval`; it measures `TP_FUNCTION` and writes `TP_EXPRESSION`. -/
def tpEval (R : Option Reserve) (t : Tp) (expr : TpStr) : Option (Ret × Tp) :=
  tpRequest R t .eval
    (mpSizeofMap 2 + mpSizeofUint BodyKey.function.num + mpSizeofStr expr.len +
      mpSizeofUint BodyKey.tuple.num)
    [mpEncodeMap 2, mpEncodeUint BodyKey.expression.num, mpEncodeStr expr.bytes,
      mpEncodeUint BodyKey.tuple.num]

/-- `tp_update`. -/
def tpUpdate (R : Option Reserve) (t : Tp) (space : UInt32) : Option (Ret × Tp) :=
  tpRequest R t .update
    (mpSizeofMap 3 + mpSizeofUint BodyKey.space.num + mpSizeofUint space.toUInt64 +
      mpSizeofUint BodyKey.key.num)
    [mpEncodeMap 3, mpEncodeUint BodyKey.space.num, mpEncodeUint space.toUInt64,
      mpEncodeUint BodyKey.key.num]

/-! ## §5 — what is appended to them. -/

/-- The course of an appending function. -/
def tpAppend (R : Option Reserve) (t : Tp) (sz : Nat) (fields : List Bytes) : Option (Ret × Tp) :=
  let (rc, t) := tpEnsure R t sz
  if rc = -1 then some (.null, t)
  else do
    let (t, _) ← t.putAll t.p fields
    let (ptr, t) ← tpAdd t sz
    return (.ptr ptr, t)

/-- `tp_updatebegin`. -/
def tpUpdatebegin (R : Option Reserve) (t : Tp) (opCount : UInt32) : Option (Ret × Tp) :=
  tpAppend R t (mpSizeofUint BodyKey.tuple.num + mpSizeofArray opCount)
    [mpEncodeUint BodyKey.tuple.num, mpEncodeArray opCount]

/-- `tp_op`. -/
def tpOp (R : Option Reserve) (t : Tp) (op : UInt8) (fieldNo : UInt32) : Option (Ret × Tp) :=
  tpAppend R t (mpSizeofArray 3 + mpSizeofStr 1 + mpSizeofUint fieldNo.toUInt64)
    [mpEncodeArray 3, mpEncodeStr [op], mpEncodeUint fieldNo.toUInt64]

/-- `tp_encode_nil`. -/
def tpEncodeNil (R : Option Reserve) (t : Tp) : Option (Ret × Tp) :=
  tpAppend R t mpSizeofNil [mpEncodeNil]

/-- `tp_encode_uint`. -/
def tpEncodeUint (R : Option Reserve) (t : Tp) (num : UInt64) : Option (Ret × Tp) :=
  tpAppend R t (mpSizeofUint num) [mpEncodeUint num]

/-- `tp_encode_int`; the value must be less than zero. -/
def tpEncodeInt (R : Option Reserve) (t : Tp) (num : Int64) : Option (Ret × Tp) :=
  tpAppend R t (mpSizeofInt num) [mpEncodeInt num]

/-- `tp_encode_str`. -/
def tpEncodeStr (R : Option Reserve) (t : Tp) (str : TpStr) : Option (Ret × Tp) :=
  tpAppend R t (mpSizeofStr str.len) [mpEncodeStr str.bytes]

/-- `tp_encode_sz` and `tp_sz`: the bytes up to the terminator. -/
def tpEncodeSz (R : Option Reserve) (t : Tp) (str : TpStr) : Option (Ret × Tp) :=
  tpAppend R t (mpSizeofStr str.len) [mpEncodeStr str.bytes]

/-- `tp_encode_bin`. -/
def tpEncodeBin (R : Option Reserve) (t : Tp) (str : TpStr) : Option (Ret × Tp) :=
  tpAppend R t (mpSizeofBin str.len) [mpEncodeBin str.bytes]

/-- `tp_encode_array`. -/
def tpEncodeArray (R : Option Reserve) (t : Tp) (size : UInt32) : Option (Ret × Tp) :=
  tpAppend R t (mpSizeofArray size) [mpEncodeArray size]

/-- `tp_encode_map`. -/
def tpEncodeMap (R : Option Reserve) (t : Tp) (size : UInt32) : Option (Ret × Tp) :=
  tpAppend R t (mpSizeofMap size) [mpEncodeMap size]

/-- `tp_encode_bool`. -/
def tpEncodeBool (R : Option Reserve) (t : Tp) (val : Bool) : Option (Ret × Tp) :=
  tpAppend R t (mpSizeofBool val) [mpEncodeBool val]

/-- `tp_encode_float`, on the bit pattern. -/
def tpEncodeFloat (R : Option Reserve) (t : Tp) (bits : UInt32) : Option (Ret × Tp) :=
  tpAppend R t (mpSizeofFloat bits) [mpEncodeFloat bits]

/-- `tp_encode_double`, on the bit pattern. -/
def tpEncodeDouble (R : Option Reserve) (t : Tp) (bits : UInt64) : Option (Ret × Tp) :=
  tpAppend R t (mpSizeofDouble bits) [mpEncodeDouble bits]

/-- `tp_tuple`. -/
def tpTuple (R : Option Reserve) (t : Tp) (fieldCount : UInt32) : Option (Ret × Tp) :=
  tpEncodeArray R t fieldCount

/-- `tp_key`. -/
def tpKey (R : Option Reserve) (t : Tp) (partCount : UInt32) : Option (Ret × Tp) :=
  tpEncodeArray R t partCount

end Code

end Tp

end TarantoolC
