/-
# TarantoolC.Object.Model — `tnt_object` as the code computes it (`tnt/tnt_object.c`).

An object is a buffer stream with a stack of open containers.  The stack is an ARRAY of
`stack_alloc` entries of which `stack_size` are in use, allocated separately and never copied when
it grows; the model keeps the array with whatever stands in its unused entries.  Every call returns
`none` for undefined behaviour, else its C return value and the object after it.

* `Obj` — the stream (`BufStream`) with the mode, the stack array and its two counts.  An entry of
  the stack is an offset into the buffer, a counter of 32 bits and the kind of container;
* `ObjAllocator` — the two things memory is asked for: the block of the buffer, and a new array for
  the stack.  A new array has whatever content the allocator likes;
* the adders — one definition for each `tnt_object_add_*`, over `write` and `writev`, after
  `countChild` has counted the element in its parent;
* `addContainer` — what `tnt_object_add_array` and `tnt_object_add_map` have in common;
* `tntObjectContainerClose` — with its three modes, and `widen`, the piece of it that makes room for
  a longer header in the middle of the buffer;
* `Call` and `runCalls` — calls as data, each with the allocator it meets.
-/
import TarantoolC.Msgpuck
import TarantoolC.Buf
import TarantoolC.Object.Builder

namespace TarantoolC.Object

open MsgPack Msgpuck

/-! ## §1 — state. -/

/-- `struct tnt_sbo_stack`. -/
structure SboStack where
  offset : Nat
  size : UInt32
  type : Kind
  deriving Repr, DecidableEq

/-- `enum tnt_sbo_type`. -/
inductive SboType where
  | simple | sparse | packed
  deriving Repr, DecidableEq

/-- `struct tnt_stream` with `struct tnt_stream_buf` and `struct tnt_sbuf_object`. -/
structure Obj where
  s : BufStream
  stack : List SboStack
  stackSize : Nat
  stackAlloc : Nat
  type : SboType
  deriving Repr, DecidableEq

/-- One answer of the allocator to an object: for its bytes, and for a new stack array (whose
entries hold anything). -/
structure ObjAllocator extends Allocator where
  newStack : Nat → Option (List SboStack)
  newStack_length : ∀ n st, newStack n = some st → st.length = n

def ObjAllocator.Succeeds (A : ObjAllocator) : Prop :=
  A.toAllocator.Succeeds ∧ ∀ n, ∃ st, A.newStack n = some st

/-- The bytes of the object, `data[0 .. size)`. -/
def Obj.bytes (o : Obj) : Bytes := o.s.sb.bytes

/-- A string handed over as pointer and 32-bit length. -/
structure CStr where
  bytes : Bytes
  short : bytes.length < 2 ^ 32

/-! ## §2 — memory. -/

/-- `tnt_sbuf_object_resize`. -/
def tntSbufObjectResize : Resize := fun A sb size =>
  if sb.size + size > sb.alloc then do
    let newsize := 2 * sb.alloc
    let newsize := if newsize < sb.size + size then sb.size + size else newsize
    let old ← sb.data.contents
    match A.realloc old newsize with
    | none => return (false, { sb with data := sb.data.free })
    | some nd => return (true, { sb with data := .live nd, alloc := newsize })
  else some (true, sb)

/-- `tnt_sbuf_object_grow_stack`: the new array replaces the old one, entries and all. -/
def tntSbufObjectGrowStack (A : ObjAllocator) (o : Obj) : Int × Obj :=
  if o.stackAlloc = 128 then (-1, o)
  else
    match A.newStack (2 * o.stackAlloc) with
    | none => (-1, o)
    | some stack => (0, { o with stack := stack, stackAlloc := 2 * o.stackAlloc })

/-! ## §3 — life cycle. -/

/-- `tnt_object_type`. -/
def tntObjectType (o : Obj) (type : SboType) : Int × Obj :=
  if o.s.wrcnt > 0 then (-1, o) else (0, { o with type := type })

/-- Setting the mode is refused, or changes the mode alone. -/
theorem tntObjectType_cases {o o' : Obj} {type : SboType} {rv : Int}
    (h : tntObjectType o type = (rv, o')) :
    rv = -1 ∧ o' = o ∨ rv = 0 ∧ o' = { o with type := type } := by
  unfold tntObjectType at h
  split at h
  · left
    obtain ⟨rfl, rfl⟩ := Prod.mk.inj h
    exact ⟨rfl, rfl⟩
  · right
    obtain ⟨rfl, rfl⟩ := Prod.mk.inj h
    exact ⟨rfl, rfl⟩

/-- `tnt_object(NULL)`; the eight entries of the new stack hold anything. -/
def tntObject (stack : List SboStack) : Obj :=
  (tntObjectType { s := tntBuf, stack := stack, stackSize := 0, stackAlloc := 8, type := .simple }
    .simple).2

/-- `tnt_object_reset`. -/
def tntObjectReset (o : Obj) : Obj :=
  { o with
    s := { o.s with reqid := 0, wrcnt := 0, sb := { o.s.sb with size := 0, rdoff := 0 } }
    stackSize := 0
    type := .simple }

/-! ## §4 — adding values. -/

section Calls

variable [Msgpuck]

/-- `if (sbo->stack_size > 0) sbo->stack[sbo->stack_size - 1].size += 1;`, the first lines of every
`tnt_object_add_*`. -/
def countChild (o : Obj) : Obj :=
  if o.stackSize > 0 then
    { o with stack := o.stack.modify (o.stackSize - 1) fun e => { e with size := e.size + 1 } }
  else o

/-- `return s->write(s, data, end - data)`. -/
def write (A : ObjAllocator) (o : Obj) (data : Bytes) : Option (Int × Obj) := do
  let (rv, s) ← tntBufWrite tntSbufObjectResize A.toAllocator o.s data
  return (rv, { o with s := s })

/-- `return s->writev(s, v, v_sz)`. -/
def writev (A : ObjAllocator) (o : Obj) (v : List Bytes) : Option (Int × Obj) := do
  let (rv, s) ← tntBufWritev tntSbufObjectResize A.toAllocator o.s v
  return (rv, { o with s := s })

def tntObjectAddNil (A : ObjAllocator) (o : Obj) : Option (Int × Obj) :=
  write A (countChild o) mpEncodeNil

def tntObjectAddUint (A : ObjAllocator) (o : Obj) (value : UInt64) : Option (Int × Obj) :=
  write A (countChild o) (mpEncodeUint value)

def tntObjectAddInt (A : ObjAllocator) (o : Obj) (value : Int64) : Option (Int × Obj) :=
  write A (countChild o)
    (if value.toInt < 0 then mpEncodeInt value else mpEncodeUint value.toUInt64)

def tntObjectAddStr (A : ObjAllocator) (o : Obj) (str : CStr) : Option (Int × Obj) :=
  writev A (countChild o) [mpEncodeStrl (UInt32.ofNat str.bytes.length), str.bytes]

/-- The length of a zero-terminated string as `uint32_t`, and that many of its bytes. -/
def strzPrefix (strz : Bytes) : CStr where
  bytes := strz.take (UInt32.ofNat strz.length).toNat
  short := by
    have h := (UInt32.ofNat strz.length).toNat_lt
    rw [List.length_take]
    omega

def tntObjectAddStrz (A : ObjAllocator) (o : Obj) (strz : Bytes) : Option (Int × Obj) :=
  tntObjectAddStr A o (strzPrefix strz)

def tntObjectAddBin (A : ObjAllocator) (o : Obj) (bin : CStr) : Option (Int × Obj) :=
  writev A (countChild o) [mpEncodeBinl (UInt32.ofNat bin.bytes.length), bin.bytes]

def tntObjectAddBool (A : ObjAllocator) (o : Obj) (value : UInt8) : Option (Int × Obj) :=
  write A (countChild o) (mpEncodeBool (value != 0))

/-- A `float` is its bit pattern. -/
def tntObjectAddFloat (A : ObjAllocator) (o : Obj) (bits : UInt32) : Option (Int × Obj) :=
  write A (countChild o) (mpEncodeFloat bits)

/-- A `double` is its bit pattern. -/
def tntObjectAddDouble (A : ObjAllocator) (o : Obj) (bits : UInt64) : Option (Int × Obj) :=
  write A (countChild o) (mpEncodeDouble bits)

/-! ## §5 — containers. -/

/-- `mp_encode_array32` (a static function of `tnt_object.c`). -/
def mpEncodeArray32 (size : UInt32) : Bytes := mpStoreU8 0xdd ++ mpStoreU32 size

/-- `mp_encode_map32`. -/
def mpEncodeMap32 (size : UInt32) : Bytes := mpStoreU8 0xdf ++ mpStoreU32 size

/-- `tnt_object_add_array` and `tnt_object_add_map`, which differ in the type they push and the
headers they write. -/
def addContainer (kind : Kind) (simple : UInt32 → Bytes) (sparse packed : Bytes)
    (A : ObjAllocator) (o : Obj) (size : UInt32) : Option (Int × Obj) :=
  let o := countChild o
  let (grown, o) := if o.stackSize = o.stackAlloc then tntSbufObjectGrowStack A o else (0, o)
  if grown = -1 then some (-1, o)
  else if o.stackSize < o.stack.length then
    let o := { o with
      stack := o.stack.set o.stackSize ⟨o.s.sb.size, 0, kind⟩
      stackSize := o.stackSize + 1 }
    match o.type with
    | .simple => write A o (simple size)
    | .sparse => write A o sparse
    | .packed => write A o packed
  else none

def tntObjectAddArray (A : ObjAllocator) (o : Obj) (size : UInt32) : Option (Int × Obj) :=
  addContainer .array mpEncodeArray (mpEncodeArray32 0) (mpEncodeArray 0) A o size

def tntObjectAddMap (A : ObjAllocator) (o : Obj) (size : UInt32) : Option (Int × Obj) :=
  addContainer .map mpEncodeMap (mpEncodeMap32 0) (mpEncodeMap 0) A o size

/-- The header of a closed container: the 5-byte form in `TNT_SBO_SPARSE` mode. -/
def sparseHeader (type : Kind) (size : Nat) : Bytes :=
  match type with
  | .map => mpEncodeMap32 (UInt32.ofNat (size / 2))
  | .array => mpEncodeArray32 (UInt32.ofNat size)

/-- ... and the shortest one in `TNT_SBO_PACKED` mode, `mp_sizeof_*` bytes long. -/
def packedHeader (type : Kind) (size : Nat) : Bytes :=
  match type with
  | .map => mpEncodeMap (UInt32.ofNat (size / 2))
  | .array => mpEncodeArray (UInt32.ofNat size)

def packedSize (type : Kind) (size : Nat) : Nat :=
  match type with
  | .map => mpSizeofMap (UInt32.ofNat (size / 2))
  | .array => mpSizeofArray (UInt32.ofNat size)

/-- The `sz > 1` block of `tnt_object_container_close`: make room for `sz - 1` more bytes and move
everything behind the one-byte placeholder at `offset` out of the way. -/
def widen (A : ObjAllocator) (sb : StreamBuf) (offset sz : Nat) : Option (Bool × StreamBuf) :=
  if sz > 1 then do
    let (ok, sb) ← tntSbufObjectResize A.toAllocator sb (sz - 1)
    if !ok then return (false, sb)
    -- `sb->size - offset - 1` is a `size_t`: it must not wrap
    if sb.size < offset + 1 then none
    let data ← sb.data.move (offset + sz) (offset + 1) (sb.size - offset - 1)
    return (true, { sb with data := data })
  else some (true, sb)

/-- The second half of `tnt_object_container_close`: the entry `e` has been popped and its header is
written over the placeholder. -/
def writeHeader (A : ObjAllocator) (o : Obj) (e : SboStack) : Option (Int × Obj) :=
  let size := e.size.toNat
  match o.type with
  | .simple => some (0, o)
  | .sparse => do
    let data ← o.s.sb.data.store e.offset (sparseHeader e.type size)
    return (0, { o with s := { o.s with sb := { o.s.sb with data := data } } })
  | .packed => do
    let sz := packedSize e.type size
    let (ok, sb) ← widen A o.s.sb e.offset sz
    if !ok then return (-1, { o with s := { o.s with sb := sb } })
    let data ← sb.data.store e.offset (packedHeader e.type size)
    let sb := { sb with data := data, size := sb.size + sz - 1 }
    return (0, { o with s := { o.s with sb := sb } })

/-- `tnt_object_container_close`. -/
def tntObjectContainerClose (A : ObjAllocator) (o : Obj) : Option (Int × Obj) :=
  if o.stackSize = 0 then some (-1, o)
  else do
    let e ← o.stack[o.stackSize - 1]?
    if e.type = .map ∧ e.size.toNat % 2 = 1 then return (-1, o)
    writeHeader A { o with stackSize := o.stackSize - 1 } e

/-! ## §6 — `tnt_object_verify`. -/

/-- `tnt_object_verify`: the bytes are one complete value, of the given type if one is asked for.
The type is looked up before the check, in the first byte of the data; with no data there is
nothing to look at. -/
def tntObjectVerify (bytes : Bytes) (type : Option Ty) : Option Int := do
  if let some t := type then
    let b ← bytes.head?
    if mpTypeof b ≠ t then return -1
  match mpCheck bytes with
  | none => return -1
  | some k => return (if k < bytes.length then -1 else 0)

/-! ## §7 — calls and runs. -/

/-- A call of the object API. -/
inductive Call where
  | addNil
  | addUint (value : UInt64)
  | addInt (value : Int64)
  | addStr (str : CStr)
  | addStrz (strz : Bytes)
  | addBin (bin : CStr)
  | addBool (value : UInt8)
  | addFloat (bits : UInt32)
  | addDouble (bits : UInt64)
  | addArray (size : UInt32)
  | addMap (size : UInt32)
  | containerClose
  | setType (type : SboType)
  | reset

/-- Perform a call. -/
def Call.exec (A : ObjAllocator) (o : Obj) : Call → Option (Int × Obj)
  | .addNil => tntObjectAddNil A o
  | .addUint value => tntObjectAddUint A o value
  | .addInt value => tntObjectAddInt A o value
  | .addStr str => tntObjectAddStr A o str
  | .addStrz strz => tntObjectAddStrz A o strz
  | .addBin bin => tntObjectAddBin A o bin
  | .addBool value => tntObjectAddBool A o value
  | .addFloat bits => tntObjectAddFloat A o bits
  | .addDouble bits => tntObjectAddDouble A o bits
  | .addArray size => tntObjectAddArray A o size
  | .addMap size => tntObjectAddMap A o size
  | .containerClose => tntObjectContainerClose A o
  | .setType type => some (tntObjectType o type)
  | .reset => some (0, tntObjectReset o)

/-- A sequence of calls, each with the allocator it meets: the return values and the final
object. -/
def runCalls : List (ObjAllocator × Call) → Obj → Option (List Int × Obj)
  | [], o => some ([], o)
  | (A, c) :: calls, o => do
    let (rv, o) ← c.exec A o
    let (rvs, o) ← runCalls calls o
    return (rv :: rvs, o)

/-- Objects that calls lead to, starting from a new one, as long as memory lasts. -/
inductive Reachable : Obj → Prop
  | new {stack : List SboStack} (h : stack.length = 8) : Reachable (tntObject stack)
  | call {A : ObjAllocator} {o o' : Obj} {c : Call} {rv : Int} (hA : A.Succeeds)
      (h : Reachable o) (hc : c.exec A o = some (rv, o')) : Reachable o'

end Calls

end TarantoolC.Object
