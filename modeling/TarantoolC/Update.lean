/-
# TarantoolC.Update — the containers of update operations (`tnt/tnt_update.c`).

A container is an object in sparse mode with one open array.  An operation is written behind it as a
whole, with one `writev`; the array is not told.  When the container is closed, the number of its
elements is taken from the stream's write counter, less one for the header.

So the invariant (`Holds`) ties the counter to the operations written since the last reset.
`tntUpdate_counts_iff`: it carries every run, unless a splice is so long that the 32-bit sum of its
sizes wraps around and the block for it is too small.

## What a run can do to a container

Calls, closings and resets come in any order, each with an allocator that may refuse (`runSteps`).
Two invariants carry this: `Holds` while the array is open, with the exact list of its elements, and
`Usable` for whatever else a container can get into, of which only that a reset brings back `Holds`
with no elements.  So the history before the last reset does not matter, and `tntUpdate_counts_iff`
is about the calls behind it.

The splice is the one call with a size computed in 32 bits.  Where its text is shorter than `2^32 -
5` bytes the length of the text itself is not cut off (`UpdateCall.Short`), but the sum with the two
numbers may still wrap around (`UpdateCall.Sized`), and then more is written than was allocated.
-/
import TarantoolC.Object.Fixed
import TarantoolC.Object.Replay
import TarantoolC.Request.Direct
import TarantoolC.Tp.Writer

namespace TarantoolC.Update

open MsgPack Msgpuck Mpsize Object

/-! ## §1 — the code.

A container is an object (`TarantoolC.Object.Model`) in the sparse mode, and the calls write to it
past the object's own adders.  Arguments are encoded into arrays of fixed sizes first, whose bounds
are checked here: a store outside is undefined. -/

/-! `enum tnt_update_op_t`. -/

def tntUopAddition : UInt8 := 0x2b
def tntUopSubstract : UInt8 := 0x2d
def tntUopAnd : UInt8 := 0x26
def tntUopXor : UInt8 := 0x5e
def tntUopOr : UInt8 := 0x7c
def tntUopDelete : UInt8 := 0x23
def tntUopInsert : UInt8 := 0x21
def tntUopAssign : UInt8 := 0x3d
def tntUopSplice : UInt8 := 0x3a

/-- `tnt_update_op_len`. -/
def tntUpdateOpLen (op : UInt8) : Int :=
  if op ∈ [tntUopAddition, tntUopSubstract, tntUopAnd, tntUopXor, tntUopOr, tntUopDelete,
    tntUopInsert, tntUopAssign] then 3
  else if op = tntUopSplice then 5
  else -1

section Code

variable [Mpsize]

/-- `tnt_update_container(NULL)`; no container is `NULL`. -/
def tntUpdateContainer (A : ObjAllocator) (stack : List SboStack) : Option (Option Obj) := do
  let ops := (tntObjectType (tntObject stack) .sparse).2
  let (rv, ops) ← tntObjectAddArray A ops 0
  return if rv = -1 then none else some ops

/-- `tnt_update_container_close`. -/
def tntUpdateContainerClose (A : ObjAllocator) (ops : Obj) : Option (Int × Obj) :=
  match ops.stack with
  | [] => none
  | e :: stack => do
    let ops := { ops with stack := { e with size := ops.s.wrcnt - 1 } :: stack }
    let (_, ops) ← tntObjectContainerClose A ops
    return (0, ops)

/-- `tnt_update_container_reset`, which frees the container when it fails. -/
def tntUpdateContainerReset (A : ObjAllocator) (ops : Obj) : Option (Int × Option Obj) := do
  let ops := (tntObjectType (tntObjectReset ops) .sparse).2
  let (rv, ops) ← tntObjectAddArray A ops 0
  return if rv = -1 then (-1, none) else (0, some ops)

/-- `tnt_update_op`, with an array of 64 bytes for the front part. -/
def tntUpdateOp (A : ObjAllocator) (ops : Obj) (op : UInt8) (fieldno : UInt32) (opdata : Bytes) :
    Option (Int × Obj) := do
  let data := mpEncodeArray (UInt32.ofInt (tntUpdateOpLen op)) ++ mpEncodeStr [op] ++
    mpEncodeUint fieldno.toUInt64
  guard (data.length ≤ 64)
  writev A ops [data, opdata]

/-- The calls with one number: it is encoded in an array of ten bytes. -/
def numberOp (A : ObjAllocator) (ops : Obj) (op : UInt8) (fieldno : UInt32) (data : Bytes) :
    Option (Int × Obj) := do
  guard (data.length ≤ 10)
  tntUpdateOp A ops op fieldno data

/-- `tnt_update_bit`. -/
def tntUpdateBit (A : ObjAllocator) (ops : Obj) (fieldno : UInt32) (op : UInt8) (value : UInt64) :
    Option (Int × Obj) :=
  if op ≠ tntUopAnd ∧ op ≠ tntUopXor ∧ op ≠ tntUopOr then some (-1, ops)
  else numberOp A ops op fieldno (mpEncodeUint value)

/-- The check of the three arithmetic calls. -/
def arithOp (A : ObjAllocator) (ops : Obj) (op : UInt8) (fieldno : UInt32) (data : Bytes) :
    Option (Int × Obj) :=
  if op ≠ tntUopAddition ∧ op ≠ tntUopSubstract then some (-1, ops)
  else numberOp A ops op fieldno data

/-- `tnt_update_arith_int`. -/
def tntUpdateArithInt (A : ObjAllocator) (ops : Obj) (fieldno : UInt32) (op : UInt8) (value : Int64) :
    Option (Int × Obj) :=
  arithOp A ops op fieldno
    (if value.toInt ≥ 0 then mpEncodeUint value.toUInt64 else mpEncodeInt value)

/-- `tnt_update_arith_float`; a `float` is its bit pattern. -/
def tntUpdateArithFloat (A : ObjAllocator) (ops : Obj) (fieldno : UInt32) (op : UInt8)
    (bits : UInt32) : Option (Int × Obj) :=
  arithOp A ops op fieldno (mpEncodeFloat bits)

/-- `tnt_update_arith_double`. -/
def tntUpdateArithDouble (A : ObjAllocator) (ops : Obj) (fieldno : UInt32) (op : UInt8)
    (bits : UInt64) : Option (Int × Obj) :=
  arithOp A ops op fieldno (mpEncodeDouble bits)

/-- `tnt_update_delete`. -/
def tntUpdateDelete (A : ObjAllocator) (ops : Obj) (fieldno fieldcount : UInt32) :
    Option (Int × Obj) :=
  numberOp A ops tntUopDelete fieldno (mpEncodeUint fieldcount.toUInt64)

/-- `tnt_update_insert` and `tnt_update_assign`. -/
def valueOp (A : ObjAllocator) (ops : Obj) (op : UInt8) (fieldno : UInt32) (val : StreamBuf) :
    Option (Int × Obj) := do
  if (← tntObjectVerify val.bytes none) ≠ 0 then return (-1, ops)
  tntUpdateOp A ops op fieldno val.bytes

/-- `tnt_update_insert`. -/
def tntUpdateInsert (A : ObjAllocator) (ops : Obj) (fieldno : UInt32) (val : StreamBuf) :
    Option (Int × Obj) :=
  valueOp A ops tntUopInsert fieldno val

/-- `tnt_update_assign`. -/
def tntUpdateAssign (A : ObjAllocator) (ops : Obj) (fieldno : UInt32) (val : StreamBuf) :
    Option (Int × Obj) :=
  valueOp A ops tntUopAssign fieldno val

/-- The `buf_size` of `tnt_update_splice`: `mp_sizeof_uint` and `mp_sizeof_str` return `uint32_t`,
and so does their sum. -/
def spliceSize (position offset : UInt32) (buffer : Bytes) : Nat :=
  (UInt32.ofNat (mpSizeofUint position.toUInt64) + UInt32.ofNat (mpSizeofUint offset.toUInt64) +
    UInt32.ofNat (mpSizeofStr (UInt32.ofNat buffer.length))).toNat

/-- `tnt_update_splice`.  The arguments are encoded into a block of this size, and all of the block
is written.  The size is a sum of 32-bit numbers and may wrap around; then the block is too small
for what is encoded into it, which is undefined. -/
def tntUpdateSplice (A : ObjAllocator) (ops : Obj) (fieldno position offset : UInt32)
    (buffer : Bytes) : Option (Int × Obj) :=
  match A.realloc [] (spliceSize position offset buffer) with
  | none => some (-1, ops)
  | some buf => do
    let data := mpEncodeUint position.toUInt64 ++ mpEncodeUint offset.toUInt64 ++
      mpEncodeStr (strzPrefix buffer).bytes
    let buf ← (Block.live buf).store 0 data
    let opdata ← buf.contents
    tntUpdateOp A ops tntUopSplice fieldno opdata

/-! ## §2 — runs.

A step is a call, a close or a reset.  A reset that fails frees the container, so a run may end
without one. -/

/-- A call that adds an operation.  Floats are their bits, and what a float means is not looked
into. -/
inductive UpdateCall where
  | bit (fieldno : UInt32) (op : UInt8) (value : UInt64)
  | arithInt (fieldno : UInt32) (op : UInt8) (value : Int64)
  | arithFloat (fieldno : UInt32) (op : UInt8) (bits : UInt32)
  | arithDouble (fieldno : UInt32) (op : UInt8) (bits : UInt64)
  | delete (fieldno fieldcount : UInt32)
  | insert (fieldno : UInt32) (val : StreamBuf)
  | assign (fieldno : UInt32) (val : StreamBuf)
  | splice (fieldno position offset : UInt32) (buffer : Bytes)

/-- Perform a call. -/
def UpdateCall.exec (A : ObjAllocator) (ops : Obj) : UpdateCall → Option (Int × Obj)
  | .bit fieldno op value => tntUpdateBit A ops fieldno op value
  | .arithInt fieldno op value => tntUpdateArithInt A ops fieldno op value
  | .arithFloat fieldno op bits => tntUpdateArithFloat A ops fieldno op bits
  | .arithDouble fieldno op bits => tntUpdateArithDouble A ops fieldno op bits
  | .delete fieldno fieldcount => tntUpdateDelete A ops fieldno fieldcount
  | .insert fieldno val => tntUpdateInsert A ops fieldno val
  | .assign fieldno val => tntUpdateAssign A ops fieldno val
  | .splice fieldno position offset buffer =>
    tntUpdateSplice A ops fieldno position offset buffer

/-- What is done with a container. -/
inductive Step where
  | call (c : UpdateCall)
  | close
  | reset

/-- Do it; a container that was freed is gone. -/
def Step.exec (A : ObjAllocator) (ops : Obj) : Step → Option (Int × Option Obj)
  | .call c => (c.exec A ops).map fun (rv, ops) => (rv, some ops)
  | .close => (tntUpdateContainerClose A ops).map fun (rv, ops) => (rv, some ops)
  | .reset => tntUpdateContainerReset A ops

/-- Do one after the other, each with the allocator it meets.  A step on a container that is lost is
not defined. -/
def runSteps : List (ObjAllocator × Step) → Option Obj → Option (List Int × Option Obj)
  | [], ops => some ([], ops)
  | _ :: _, none => none
  | (A, s) :: steps, some ops => do
    let (rv, ops) ← s.exec A ops
    let (rvs, ops) ← runSteps steps ops
    return (rv :: rvs, ops)

end Code

/-! ## §3 — what the calls mean.

An element of the array is an operation as the server reads it: its name, a field number, its
arguments.  The meaning is independent of the encoding, and `none` for a call that has to be
refused. -/

/-- The mathematical value of an integer argument. -/
def intValue (value : Int64) : Value :=
  if value.toInt ≥ 0 then .uint value.toInt.toNat else .int value.toInt

/-- An operation: its name, the field and the arguments. -/
def operation (op : UInt8) (fieldno : UInt32) (args : List Value) : Value :=
  .array (.str [op] :: .uint fieldno.toNat :: args)

/-- The element a call stands for; a call with a bad operator or an invalid value stands for none.
The relation is the text of the protocol: operator, field, arguments.  It says nothing of how they
are encoded. -/
inductive UpdateCall.Means : UpdateCall → Value → Prop
  | bit {fieldno op value} (h : op = tntUopAnd ∨ op = tntUopXor ∨ op = tntUopOr) :
      Means (.bit fieldno op value) (operation op fieldno [.uint value.toNat])
  | arithInt {fieldno op value} (h : op = tntUopAddition ∨ op = tntUopSubstract) :
      Means (.arithInt fieldno op value) (operation op fieldno [intValue value])
  | arithFloat {fieldno op bits} (h : op = tntUopAddition ∨ op = tntUopSubstract) :
      Means (.arithFloat fieldno op bits) (operation op fieldno [.float bits.toNat])
  | arithDouble {fieldno op bits} (h : op = tntUopAddition ∨ op = tntUopSubstract) :
      Means (.arithDouble fieldno op bits) (operation op fieldno [.double bits.toNat])
  | delete {fieldno fieldcount} :
      Means (.delete fieldno fieldcount) (operation tntUopDelete fieldno [.uint fieldcount.toNat])
  | insert {fieldno val v} (h : Encodes v val.bytes) :
      Means (.insert fieldno val) (operation tntUopInsert fieldno [v])
  | assign {fieldno val v} (h : Encodes v val.bytes) :
      Means (.assign fieldno val) (operation tntUopAssign fieldno [v])
  | splice {fieldno position offset buffer} :
      Means (.splice fieldno position offset buffer)
        (operation tntUopSplice fieldno [.uint position.toNat, .uint offset.toNat, .str buffer])

/-- The text of a splice is shorter than 2^32 - 5 bytes. -/
def UpdateCall.Short : UpdateCall → Prop
  | .splice _ _ _ buffer => buffer.length < 2 ^ 32 - 5
  | _ => True

/-- The arguments of a splice take less than 2^32 bytes. -/
def UpdateCall.Sized : UpdateCall → Prop
  | .splice _ position offset buffer =>
    (encode (.uint position.toNat)).length + (encode (.uint offset.toNat)).length +
      (encode (.str buffer)).length < 2 ^ 32
  | _ => True

/-- The elements of the calls that stand for one. -/
inductive Elements : List UpdateCall → List Value → Prop
  | nil : Elements [] []
  | accepted {c v cs vs} (h : c.Means v) (hs : Elements cs vs) : Elements (c :: cs) (v :: vs)
  | refused {c cs vs} (h : ∀ v, ¬ c.Means v) (hs : Elements cs vs) : Elements (c :: cs) vs

/-- No call adds more than one element. -/
theorem Elements.length_le {cs : List UpdateCall} {vs : List Value} (h : Elements cs vs) :
    vs.length ≤ cs.length := by
  induction h with
  | nil => exact Nat.le_refl _
  | accepted h hs ih => exact Nat.succ_le_succ ih
  | refused h hs ih => exact Nat.le_succ_of_le ih

/-- The call returns -1 exactly if it stands for no element; the others return 0. -/
def Step.Returns : Step → Int → Prop
  | .call c, rv => rv = -1 ↔ ∀ v, ¬ c.Means v
  | _, rv => rv = 0

/-! ## §4 — one call.

Each call writes its element with one `writev`, or nothing.  What is different between the calls is
how the arguments get encoded, and for two of them that they are checked first. -/

/-- The call writes an encoding of `v` behind the container, at one go. -/
def Writes (ops : Obj) (r : Option (Int × Obj)) (v : Value) : Prop :=
  ∃ (bs : Bytes) (sb : StreamBuf), r = some ((bs.length : Int),
      { ops with s := { ops.s with sb := sb, wrcnt := ops.s.wrcnt + 1 } }) ∧
    sb.WF ∧ sb.bytes = ops.bytes ++ bs ∧ Encodes v bs

/-- An array header of a style in front of elements encoded in any way. -/
theorem encodes_array {S : Style} (hS : S.Sound) {xs : List Value} {bs : Bytes}
    (h : EncodesAll xs bs) (hlen : xs.length < 2 ^ 32) :
    Encodes (.array xs) (S.array.min xs.length ++ bs) := by
  obtain ⟨b, l, ds, hmin, hlead, hl⟩ := Form.min_spec hS.array (hS.array_covers _ hlen)
  rw [hmin]
  exact .array hlead hl h

section Calls

variable [Mpsize] {A : ObjAllocator} {ops : Obj}

/-- One call after the other: the common end of all of them, ... -/
theorem tntUpdateOp_writes (hA : A.Succeeds) (ho : ops.WF) {op : UInt8} {fieldno : UInt32}
    {args : List Value} {opdata : Bytes} (hlen : tntUpdateOpLen op = args.length + 2)
    (hargs : EncodesAll args opdata) :
    Writes ops (tntUpdateOp A ops op fieldno opdata) (operation op fieldno args) := by
  have hfew : args.length = 1 ∨ args.length = 3 := by
    unfold tntUpdateOpLen at hlen
    split_ifs at hlen <;> omega
  have hcount : UInt32.ofInt (tntUpdateOpLen op) = UInt32.ofNat (args.length + 2) := by
    rw [hlen]
    rcases hfew with h | h <;> rw [h] <;> rfl
  have hname : mpEncodeStr [op] = encode (.str [op]) := by
    rw [mpEncodeStr_eq _ (by simp)]
    rfl
  have hsmall : (args.length + 2) % 2 ^ 32 = args.length + 2 := by omega
  have hhead : mpEncodeArray (UInt32.ofInt (tntUpdateOpLen op)) = arrayForm.min (args.length + 2) := by
    rw [hcount, mpEncodeArray_eq, UInt32.toNat_ofNat', hsmall]
  have hone : (arrayForm.min (args.length + 2)).length = 1 := by
    rcases hfew with h | h <;> rw [h] <;> rfl
  have hfield := Request.mpEncodeUint_uint32_length fieldno
  have htwo : (encode (.str [op])).length = 2 := rfl
  have hroom : (mpEncodeArray (UInt32.ofInt (tntUpdateOpLen op)) ++ mpEncodeStr [op] ++
      mpEncodeUint fieldno.toUInt64).length ≤ 64 := by
    rw [hhead, hname, List.length_append, List.length_append, hone, htwo]
    omega
  -- what is written is an encoding of the operation
  have henc : Encodes (operation op fieldno args) [mpEncodeArray (UInt32.ofInt (tntUpdateOpLen op)) ++
      mpEncodeStr [op] ++ mpEncodeUint fieldno.toUInt64, opdata].flatten := by
    have hstr : Encodes (.str [op]) (encode (.str [op])) :=
      encodes_encodeWith packed_sound _ (by simp [Value.Fits])
    have huint : Encodes (.uint fieldno.toNat) (encode (.uint fieldno.toNat)) :=
      encodes_encodeWith packed_sound _ (by
        have := fieldno.toNat_lt
        simp only [Value.Fits]
        omega)
    have hall := encodes_array packed_sound (.cons hstr (.cons huint hargs))
      (by simp only [List.length_cons]; omega)
    simp only [List.flatten_cons, List.flatten_nil, List.append_nil, hhead, hname,
      Request.mpEncodeUint_uint32, List.append_assoc]
    exact hall
  obtain ⟨sb, hwrite, hwf, hbytes, -⟩ := tntBufWritev_spec tntSbufObjectResize_spec hA.1 ho.buf
    henc.length_pos
  refine ⟨_, sb, ?_, hwf, hbytes, henc⟩
  simp only [tntUpdateOp, guard, if_pos hroom, bind, Option.bind_some, pure, writev, hwrite]

/-- ... those with a number, ... -/
theorem numberOp_writes (hA : A.Succeeds) (ho : ops.WF) {op : UInt8} {fieldno : UInt32} {v : Value}
    {data : Bytes} (hop : tntUpdateOpLen op = 3) (hdata : Encodes v data) (hlen : data.length ≤ 9) :
    Writes ops (numberOp A ops op fieldno data) (operation op fieldno [v]) := by
  have hroom : data.length ≤ 10 := by omega
  rw [numberOp]
  simp only [guard, if_pos hroom, bind, Option.bind_some, pure]
  exact tntUpdateOp_writes hA ho hop (.singleton hdata)

/-- ... a number being at most nine bytes, ... -/
theorem encodes_uint64 (n : UInt64) :
    Encodes (.uint n.toNat) (mpEncodeUint n) ∧ (mpEncodeUint n).length ≤ 9 := by
  rw [mpEncodeUint_eq]
  refine ⟨encodes_uint n.toNat_lt, ?_⟩
  rw [uintForm_min_length]
  split_ifs <;> omega

/-- An integer is written with its mathematical value.  There are two encoders, and the sign says
which: a number that is not negative is written as an unsigned one. -/
theorem encodes_int64 (value : Int64) :
    let data := if value.toInt ≥ 0 then mpEncodeUint value.toUInt64 else mpEncodeInt value
    Encodes (intValue value) data ∧ data.length ≤ 9 := by
  intro data
  by_cases hpos : value.toInt ≥ 0
  · have hnat : value.toUInt64.toNat = value.toInt.toNat :=
      Int64.toNat_toUInt64_of_le (Int64.le_iff_toInt_le.mpr hpos)
    have henc := encodes_uint64 value.toUInt64
    rw [hnat] at henc
    simp only [data, intValue, if_pos hpos]
    exact henc
  · have hneg : value.toInt < 0 := by omega
    simp only [data, intValue, if_neg hpos, mpEncodeInt_eq _ hneg]
    refine ⟨encodes_int value.le_toInt hneg, ?_⟩
    unfold negBytes
    split_ifs <;> simp

/-- Without a type to look for, a value is accepted exactly if it is one.  So a call with a value is
accepted or refused, and never undefined for want of a type. -/
theorem verify_cases (bytes : Bytes) :
    ((∃ v, Encodes v bytes) ∧ tntObjectVerify bytes none = some 0) ∨
      ((∀ v, ¬ Encodes v bytes) ∧ tntObjectVerify bytes none = some (-1)) := by
  rcases mpCheck_cases bytes with ⟨hcheck, hno⟩ | ⟨k, hcheck, hiff⟩
  · exact .inr ⟨fun v henc => hno ⟨v, henc⟩, by simp [tntObjectVerify, hcheck]⟩
  · by_cases hlt : k < bytes.length
    · refine .inr ⟨fun v henc => (hiff.mpr ⟨v, henc⟩) hlt, by simp [tntObjectVerify, hcheck, hlt]⟩
    · exact .inl ⟨hiff.mp hlt, by simp [tntObjectVerify, hcheck, hlt]⟩

/-- ... those with a value, ... -/
theorem valueOp_writes (hA : A.Succeeds) (ho : ops.WF) {op : UInt8} {fieldno : UInt32} {v : Value}
    {val : StreamBuf} (hop : tntUpdateOpLen op = 3) (hval : Encodes v val.bytes) :
    Writes ops (valueOp A ops op fieldno val) (operation op fieldno [v]) := by
  rcases verify_cases val.bytes with ⟨-, hverify⟩ | ⟨hno, -⟩
  · simp only [valueOp, hverify, bind, Option.bind_some, ne_eq, not_true_eq_false, if_false]
    exact tntUpdateOp_writes hA ho hop (.singleton hval)
  · exact absurd hval (hno v)

/-- ... which is checked first, ... -/
theorem valueOp_refused {op : UInt8} {fieldno : UInt32} {val : StreamBuf}
    (hno : ∀ v, ¬ Encodes v val.bytes) : valueOp A ops op fieldno val = some (-1, ops) := by
  rcases verify_cases val.bytes with ⟨⟨v, hval⟩, -⟩ | ⟨-, hverify⟩
  · exact absurd hval (hno v)
  · simp [valueOp, hverify]

/-- What `tnt_update_splice` stores in its block. -/
def spliceData (position offset : UInt32) (buffer : Bytes) : Bytes :=
  encode (.uint position.toNat) ++ encode (.uint offset.toNat) ++ encode (.str buffer)

/-- ... and the splice, whose three arguments are encoded apart ... -/
theorem spliceData_eq (position offset : UInt32) {buffer : Bytes} (h : buffer.length < 2 ^ 32 - 5) :
    mpEncodeUint position.toUInt64 ++ mpEncodeUint offset.toUInt64 ++
      mpEncodeStr (strzPrefix buffer).bytes = spliceData position offset buffer := by
  have hbytes : (strzPrefix buffer).bytes = buffer := by
    have hlen : (UInt32.ofNat buffer.length).toNat = buffer.length :=
      UInt32.toNat_ofNat_of_lt' (Nat.lt_of_lt_of_le h (Nat.sub_le _ _))
    show buffer.take (UInt32.ofNat buffer.length).toNat = buffer
    rw [hlen, List.take_length]
  rw [hbytes, Request.mpEncodeUint_uint32, Request.mpEncodeUint_uint32,
    mpEncodeStr_eq _ (Nat.lt_of_lt_of_le h (Nat.sub_le _ _))]
  rfl

/-- The sum of the sizes is that of what is stored, up to 2^32.  Only the text can be long enough to
make a difference. -/
theorem spliceSize_eq (position offset : UInt32) {buffer : Bytes} (h : buffer.length < 2 ^ 32 - 5) :
    spliceSize position offset buffer = (spliceData position offset buffer).length % 2 ^ 32 := by
  have hlen : (UInt32.ofNat buffer.length).toNat = buffer.length :=
    UInt32.toNat_ofNat_of_lt' (Nat.lt_of_lt_of_le h (Nat.sub_le _ _))
  have hdata : (spliceData position offset buffer).length = (uintForm.min position.toNat).length +
      (uintForm.min offset.toNat).length + ((strForm.min buffer.length).length + buffer.length) := by
    rw [spliceData, List.length_append, List.length_append]
    show _ + _ + (strForm.min buffer.length ++ buffer).length = _
    rw [List.length_append]
    rfl
  rw [spliceSize, mpSizeofUint_eq, mpSizeofUint_eq, mpSizeofStr_eq, hlen, UInt32.toNat_add,
    UInt32.toNat_add, UInt32.toNat_ofNat', UInt32.toNat_ofNat', UInt32.toNat_ofNat',
    UInt32.toNat_toUInt64, UInt32.toNat_toUInt64, hdata]
  omega

/-- ... and written as one, if the block is large enough.  The second hypothesis is exactly that the
sum of the sizes has not wrapped around. -/
theorem tntUpdateSplice_writes (hA : A.Succeeds) (ho : ops.WF) {fieldno position offset : UInt32}
    {buffer : Bytes} (hshort : buffer.length < 2 ^ 32 - 5)
    (hsized : (spliceData position offset buffer).length < 2 ^ 32) :
    Writes ops (tntUpdateSplice A ops fieldno position offset buffer)
      (operation tntUopSplice fieldno [.uint position.toNat, .uint offset.toNat, .str buffer]) := by
  have henc : EncodesAll [.uint position.toNat, .uint offset.toNat, .str buffer]
      (spliceData position offset buffer) := by
    have hargs : encodeAllWith packed [.uint position.toNat, .uint offset.toNat, .str buffer] =
        spliceData position offset buffer := by
      simp only [encodeAllWith, spliceData, encode, List.append_nil, List.append_assoc]
    rw [← hargs]
    apply encodesAll_encodeAllWith packed_sound
    have hposition := position.toNat_lt
    have hoffset := offset.toNat_lt
    have hbuffer : buffer.length < 2 ^ 32 := Nat.lt_of_lt_of_le hshort (Nat.sub_le _ _)
    exact ⟨Nat.lt_trans hposition (by decide), Nat.lt_trans hoffset (by decide), hbuffer, trivial⟩
  -- the sum does not wrap around, and the memory is as large as what is stored
  have hsize : spliceSize position offset buffer = (spliceData position offset buffer).length := by
    rw [spliceSize_eq position offset hshort, Nat.mod_eq_of_lt hsized]
  have hpos : 0 < (spliceData position offset buffer).length := by
    have hposition := position.toNat_lt
    have hfront : 0 < (encode (.uint position.toNat)).length :=
      (encodes_uint (n := position.toNat) (by omega)).length_pos
    rw [spliceData, List.length_append, List.length_append]
    omega
  obtain ⟨buf, hbuf⟩ := hA.1 [] _ hpos
  have hlen := A.realloc_length _ _ _ hbuf
  have hstore : (Block.live buf).store 0 (spliceData position offset buffer) =
      some (.live (spliceData position offset buffer)) := by
    have hall : overwrite buf 0 (spliceData position offset buffer) =
        spliceData position offset buffer := by
      rw [overwrite, Nat.zero_add, List.take_zero, List.nil_append, ← hlen, List.drop_length,
        List.append_nil]
    rw [Block.store, if_pos (by omega), hall]
  unfold tntUpdateSplice
  rw [hsize, hbuf]
  simp only [spliceData_eq position offset hshort, hstore, bind, Option.bind_some, Block.contents]
  exact tntUpdateOp_writes hA ho rfl henc

/-- Where the sum wraps around, the block is too small for what is stored in it.  It is undefined if
memory for that block is given, and -1 if not.  Either way nothing is written that a server could
read. -/
theorem tntUpdateSplice_overrun {fieldno position offset : UInt32} {buffer : Bytes}
    (hshort : buffer.length < 2 ^ 32 - 5)
    (hbig : ¬ (spliceData position offset buffer).length < 2 ^ 32) :
    tntUpdateSplice A ops fieldno position offset buffer = none ∨
      tntUpdateSplice A ops fieldno position offset buffer = some (-1, ops) := by
  unfold tntUpdateSplice
  cases hbuf : A.realloc [] (spliceSize position offset buffer) with
  | none => exact .inr rfl
  | some buf =>
    refine .inl ?_
    have hlen := A.realloc_length _ _ _ hbuf
    have hlt : spliceSize position offset buffer < 2 ^ 32 := by
      rw [spliceSize_eq position offset hshort]
      exact Nat.mod_lt _ (by decide)
    have hstore : (Block.live buf).store 0 (spliceData position offset buffer) = none := by
      rw [Block.store, if_neg (by omega)]
    simp only [spliceData_eq position offset hshort, hstore, bind, Option.bind_none]

omit [Mpsize] in
/-- When it is. -/
theorem UpdateCall.sized_splice {fieldno position offset : UInt32} {buffer : Bytes} :
    (UpdateCall.splice fieldno position offset buffer).Sized ↔
      (spliceData position offset buffer).length < 2 ^ 32 := by
  rw [UpdateCall.Sized, spliceData, List.length_append, List.length_append]

/-- A call that stands for an element writes it.  One case for each call; the calls with a number,
the calls with a value and the splice have a lemma each, and what is left here is that each call
passes it the right encoding. -/
theorem UpdateCall.exec_writes (hA : A.Succeeds) (ho : ops.WF) {c : UpdateCall} {v : Value}
    (h : c.Means v) (hshort : c.Short) (hsized : c.Sized) : Writes ops (c.exec A ops) v := by
  cases h with
  -- the numeric calls differ in how the number is encoded, and in that only
  | @bit fieldno op value h =>
    have hlen : tntUpdateOpLen op = 3 := by rcases h with rfl | rfl | rfl <;> rfl
    obtain ⟨henc, hle⟩ := encodes_uint64 value
    rw [exec, tntUpdateBit, if_neg (by tauto)]
    exact numberOp_writes hA ho hlen henc hle
  | @arithInt fieldno op value h =>
    have hlen : tntUpdateOpLen op = 3 := by rcases h with rfl | rfl <;> rfl
    obtain ⟨henc, hle⟩ := encodes_int64 value
    rw [exec, tntUpdateArithInt, arithOp, if_neg (by tauto)]
    exact numberOp_writes hA ho hlen henc hle
  | @arithFloat fieldno op bits h =>
    have hlen : tntUpdateOpLen op = 3 := by rcases h with rfl | rfl <;> rfl
    rw [exec, tntUpdateArithFloat, arithOp, if_neg (by tauto), mpEncodeFloat_eq]
    exact numberOp_writes hA ho hlen (encodes_float bits.toNat_lt) (by simp)
  | @arithDouble fieldno op bits h =>
    have hlen : tntUpdateOpLen op = 3 := by rcases h with rfl | rfl <;> rfl
    rw [exec, tntUpdateArithDouble, arithOp, if_neg (by tauto), mpEncodeDouble_eq]
    exact numberOp_writes hA ho hlen (encodes_double bits.toNat_lt) (by simp)
  | @delete fieldno fieldcount =>
    obtain ⟨henc, hle⟩ := encodes_uint64 fieldcount.toUInt64
    rw [UInt32.toNat_toUInt64] at henc
    exact numberOp_writes hA ho rfl henc hle
  -- the calls that carry a value copy it from the caller's stream as it stands
  | insert hval => exact valueOp_writes hA ho rfl hval
  | assign hval => exact valueOp_writes hA ho rfl hval
  | splice => exact tntUpdateSplice_writes hA ho hshort (sized_splice.mp hsized)

/-- A call that stands for none changes nothing.  The operator is looked at before anything is
written, and so is the value. -/
theorem UpdateCall.exec_refused {c : UpdateCall} (h : ∀ v, ¬ c.Means v) :
    c.exec A ops = some (-1, ops) := by
  cases c with
  | bit fieldno op value =>
    rw [exec, tntUpdateBit, if_pos]
    by_contra hop
    exact h _ (.bit (by tauto))
  | arithInt fieldno op value =>
    rw [exec, tntUpdateArithInt, arithOp, if_pos]
    by_contra hop
    exact h _ (.arithInt (by tauto))
  | arithFloat fieldno op bits =>
    rw [exec, tntUpdateArithFloat, arithOp, if_pos]
    by_contra hop
    exact h _ (.arithFloat (by tauto))
  | arithDouble fieldno op bits =>
    rw [exec, tntUpdateArithDouble, arithOp, if_pos]
    by_contra hop
    exact h _ (.arithDouble (by tauto))
  | delete fieldno fieldcount => exact absurd .delete (h _)
  | insert fieldno val => exact valueOp_refused fun v hval => h _ (.insert hval)
  | assign fieldno val => exact valueOp_refused fun v hval => h _ (.assign hval)
  | splice fieldno position offset buffer => exact absurd .splice (h _)

/-- A splice that does not fit never returns with an element written. -/
theorem UpdateCall.exec_oversized {c : UpdateCall} (hshort : c.Short) (h : ¬ c.Sized) :
    c.exec A ops = none ∨ c.exec A ops = some (-1, ops) := by
  cases c with
  | splice fieldno position offset buffer =>
    exact tntUpdateSplice_overrun hshort (fun hlt => h (sized_splice.mpr hlt))
  | _ => exact absurd trivial h

/-! ## §5 — the container.

The header of an open array is a placeholder of five bytes, so closing never moves anything.  What
it announces is `wrcnt - 1`. -/

/-- The container is open, and holds the elements `vs` and nothing else. -/
structure Holds (ops : Obj) (vs : List Value) : Prop where
  wf : ops.WF
  mode : ops.type = .sparse
  frames : ops.frames = [⟨0, 0, .array⟩]
  counter : ops.s.wrcnt = UInt32.ofNat (vs.length + 1)
  elements : ∃ body, ops.bytes = mpEncodeArray32 0 ++ body ∧ EncodesAll vs body

/-- An element written behind it is one more element.  The counter goes up with it, so the two stay
in step. -/
theorem Holds.writes {vs : List Value} (h : Holds ops vs) {r : Option (Int × Obj)} {v : Value}
    (hr : Writes ops r v) : ∃ rv ops', r = some (rv, ops') ∧ rv ≠ -1 ∧ Holds ops' (vs ++ [v]) := by
  obtain ⟨bs, sb, rfl, hwf, hbytes, henc⟩ := hr
  obtain ⟨body, hbody, hvs⟩ := h.elements
  refine ⟨bs.length, _, rfl, by omega, ⟨hwf, h.wf.stack_length, h.wf.alloc_ge, h.wf.size_le⟩, h.mode,
    h.frames, ?_, body ++ bs, ?_, hvs.append (.singleton henc)⟩
  · rw [List.length_append]
    show ops.s.wrcnt + 1 = _
    rw [h.counter]
    simp [UInt32.ofNat_add]
  · show sb.bytes = _
    rw [hbytes, hbody, List.append_assoc]

omit [Mpsize] in
/-- Writes are counted.  A failed write does not count, which is why the counter says how many
elements there are. -/
theorem write_counts {data : Bytes} {rv : Int} {ops' : Obj} (h : write A ops data = some (rv, ops'))
    (hrv : rv ≠ -1) : ops'.s.wrcnt = ops.s.wrcnt + 1 := by
  obtain ⟨⟨rv', s⟩, hwrite, heq⟩ := Option.bind_eq_some_iff.mp h
  obtain ⟨rfl, rfl⟩ := Prod.mk.inj (Option.some.inj heq)
  unfold tntBufWrite at hwrite
  split_ifs at hwrite
  · exact absurd (congrArg Prod.fst (Option.some.inj hwrite)).symm hrv
  · obtain ⟨⟨ok, sb⟩, -, hwrite⟩ := Option.bind_eq_some_iff.mp hwrite
    cases ok with
    | false => exact absurd (congrArg Prod.fst (Option.some.inj hwrite)).symm hrv
    | true =>
      obtain ⟨data', -, hwrite⟩ := Option.bind_eq_some_iff.mp hwrite
      obtain ⟨-, rfl⟩ := Prod.mk.inj (Option.some.inj hwrite)
      rfl

omit [Mpsize] in
/-- Neither counting a child nor growing the stack touches the stream. -/
theorem countChild_stream (o : Obj) : (countChild o).s = o.s := by
  unfold countChild
  split <;> rfl

omit [Mpsize] in
/-- A larger stack array is none of the stream's business. -/
theorem growStack_stream (o : Obj) : (tntSbufObjectGrowStack A o).2.s = o.s := by
  unfold tntSbufObjectGrowStack
  split
  · rfl
  · split <;> rfl

/-- The header of the array counts as a write, ... -/
theorem addArray_counts {size : UInt32} {rv : Int} {ops' : Obj}
    (h : tntObjectAddArray A ops size = some (rv, ops')) (hrv : rv ≠ -1) :
    ops'.s.wrcnt = ops.s.wrcnt + 1 := by
  unfold tntObjectAddArray addContainer at h
  obtain ⟨grown, o, hgrown, ho⟩ : ∃ grown o, (if (countChild ops).stackSize = (countChild ops).stackAlloc
      then tntSbufObjectGrowStack A (countChild ops) else (0, countChild ops)) = (grown, o) ∧
      o.s = ops.s := by
    split
    · exact ⟨_, _, rfl, (growStack_stream _).trans (countChild_stream ops)⟩
    · exact ⟨_, _, rfl, countChild_stream ops⟩
  simp only [hgrown] at h
  split_ifs at h
  · exact absurd (congrArg Prod.fst (Option.some.inj h)).symm hrv
  · have hstream : o.s.wrcnt = ops.s.wrcnt := by rw [ho]
    rw [← hstream]
    split at h
    · exact (write_counts h hrv :)
    · exact (write_counts h hrv :)
    · exact (write_counts h hrv :)

/-- The beginning of a container, new or reset: an empty array is opened.  The header stands first,
and its number of elements is filled in at the end. -/
theorem begin_holds (hA : A.Succeeds) (hwf : ops.WF) (hmode : ops.type = .sparse)
    (hbuild : ops.build = ⟨[], []⟩) (hcounter : ops.s.wrcnt = 0) :
    ∃ rv ops', tntObjectAddArray A ops 0 = some (rv, ops') ∧ rv ≠ -1 ∧ Holds ops' [] := by
  have hframes : ops.frames = [] := congrArg Build.frames hbuild
  have hbytes : ops.bytes = [] := congrArg Build.bytes hbuild
  have hpos : 0 < (mpEncodeArray32 0).length := by simp [mpEncodeArray32]
  have hyields : Yields (tntObjectAddArray A ops 0) ops.type
      ⟨ops.bytes ++ mpEncodeArray32 0, [⟨ops.bytes.length, 0, .array⟩]⟩ :=
    addContainer_yields hA hwf (by rw [hframes]; rfl) (by decide) (.inl ⟨hmode, rfl⟩) hpos
  obtain ⟨rv, ops', hadd, hrv, hwf', htype, hbuild'⟩ := hyields
  rw [hbytes] at hbuild'
  refine ⟨rv, ops', hadd, hrv, hwf', htype.trans hmode, congrArg Build.frames hbuild', ?_, [],
    (congrArg Build.bytes hbuild').trans (by simp), .nil⟩
  rw [addArray_counts hadd hrv, hcounter]
  rfl

/-- ... and has room for any number of elements, ... -/
theorem placeholder_eq : mpEncodeArray32 0 = Kind.placeholder sparse .array := by
  simp [mpEncodeArray32, Kind.placeholder]
  rfl

/-- Closing an open container writes the header for as many elements as the write counter says.  In
sparse mode the header has five bytes whatever the number, so it is written over the placeholder and
nothing is moved. -/
theorem close_open (hA : A.Succeeds) (hwf : ops.WF) (hmode : ops.type = .sparse)
    (hframes : ops.frames = [⟨0, 0, .array⟩]) (hlen : 5 ≤ ops.bytes.length) :
    ∃ ops', tntUpdateContainerClose A ops = some (0, ops') ∧ ops'.WF ∧ ops'.type = .sparse ∧
      ops'.build = ⟨Frame.patch sparse ⟨0, (ops.s.wrcnt - 1).toNat, .array⟩ ops.bytes, []⟩ := by
  have hsize : ops.stackSize = 1 := by rw [← hwf.frames_length, hframes]; rfl
  obtain ⟨e, he, htop⟩ := hwf.top hsize
  have hframe : e.frame = ⟨0, 0, .array⟩ := by
    rw [hframes] at htop
    exact (List.cons.inj htop).1.symm
  obtain ⟨e', stack, hstack⟩ : ∃ e' stack, ops.stack = e' :: stack :=
    List.exists_cons_of_length_pos (List.length_pos_of_mem (List.mem_of_getElem? he))
  obtain rfl : e' = e := by
    rw [hstack] at he
    exact Option.some.inj he
  -- the entry on the stack gets the number of elements
  set counted : Obj := { ops with stack := { e' with size := ops.s.wrcnt - 1 } :: stack }
    with hcounted
  have hwf' : counted.WF := by
    refine ⟨hwf.buf, ?_, hwf.alloc_ge, hwf.size_le⟩
    have hlength := hwf.stack_length
    rw [hstack] at hlength
    exact hlength
  have hframes' : counted.frames = [⟨0, (ops.s.wrcnt - 1).toNat, .array⟩] := by
    obtain ⟨hoffset, -, htype⟩ := Frame.mk.inj hframe
    rw [Obj.frames, hcounted]
    simp only [hsize, openFrames, List.take_succ_cons, List.take_zero, List.map_cons, List.map_nil,
      List.reverse_singleton, SboStack.frame, hoffset, htype]
  have hstyle : counted.type.style = some sparse := by
    show ops.type.style = some sparse
    rw [hmode]
    rfl
  have hin : 0 + (Kind.placeholder sparse .array).length ≤ counted.bytes.length := by
    have hfive : (mpEncodeArray32 0).length = 5 := by simp [mpEncodeArray32]
    rw [Nat.zero_add, ← placeholder_eq, hfive]
    exact hlen
  obtain ⟨rv, ops', hclose, -, hwf'', htype, hbuild⟩ := tntObjectContainerClose_yields hA hwf' hstyle
    hframes' (by simp) hin
  refine ⟨ops', ?_, hwf'', htype.trans hmode, hbuild⟩
  simp only [tntUpdateContainerClose, hstack, ← hcounted, hclose, bind, Option.bind_some, pure]

/-- ... so an open container is never shorter. -/
theorem Holds.length_ge {vs : List Value} (h : Holds ops vs) : 5 ≤ ops.bytes.length := by
  obtain ⟨body, hbody, -⟩ := h.elements
  rw [hbody, List.length_append]
  simp [mpEncodeArray32]

/-- **Closing the container** announces as many elements as were written.  The bound is that of the
write counter, which has counted the header as well. -/
theorem close_holds (hA : A.Succeeds) {vs : List Value} (h : Holds ops vs)
    (hlen : vs.length < 2 ^ 32 - 1) : ∃ ops', tntUpdateContainerClose A ops = some (0, ops') ∧
      Encodes (.array vs) ops'.bytes := by
  obtain ⟨body, hbody, hvs⟩ := h.elements
  obtain ⟨ops', hclose, -, -, hbuild⟩ := close_open hA h.wf h.mode h.frames h.length_ge
  refine ⟨ops', hclose, ?_⟩
  have hcount : (ops.s.wrcnt - 1).toNat = vs.length := by
    have hone : ops.s.wrcnt - 1 = UInt32.ofNat vs.length := by
      rw [h.counter, UInt32.ofNat_add]
      exact UInt32.add_sub_cancel _ _
    rw [hone]
    exact UInt32.toNat_ofNat_of_lt' (Nat.lt_of_lt_of_le hlen (Nat.sub_le _ _))
  have hbytes : ops'.bytes = sparse.array.min vs.length ++ body := by
    have hpatch : ops'.bytes = Frame.patch sparse ⟨0, vs.length, .array⟩ ops.bytes := by
      rw [← hcount]
      exact congrArg Build.bytes hbuild
    rw [hpatch, Frame.patch, hbody, placeholder_eq, List.take_zero, List.nil_append, Nat.zero_add,
      List.drop_left]
    rfl
  rw [hbytes]
  exact encodes_array sparse_sound hvs (Nat.lt_of_lt_of_le hlen (Nat.sub_le _ _))

/-- A reset container is empty, whatever it was before.  `ops` may have been closed before, or have
elements; the reset keeps the memory and opens the array anew. -/
theorem reset_holds (hA : A.Succeeds) (hwf : ops.WF) :
    ∃ ops', tntUpdateContainerReset A ops = some (0, some ops') ∧ Holds ops' [] := by
  have hbytes : (tntObjectReset ops).bytes = [] := by
    unfold Obj.bytes StreamBuf.bytes tntObjectReset
    simp only
    split
    · rw [List.take_zero]
    · rfl
  have hwf' : Obj.WF { tntObjectReset ops with type := .sparse } :=
    ⟨⟨hwf.buf.owned, hwf.buf.block, Nat.zero_le _⟩, hwf.stack_length, hwf.alloc_ge, Nat.zero_le _⟩
  obtain ⟨rv, ops', hadd, hrv, hholds⟩ := begin_holds hA hwf' rfl
    (by show Build.mk (tntObjectReset ops).bytes [] = _; rw [hbytes]) rfl
  refine ⟨ops', ?_, hholds⟩
  have htype : (tntObjectType (tntObjectReset ops) .sparse).2 =
      { tntObjectReset ops with type := .sparse } := rfl
  simp only [tntUpdateContainerReset, htype, hadd, bind, Option.bind_some, pure, if_neg hrv]

/-- A new container is empty.  A new object is a reset one with no memory yet. -/
theorem container_holds (hA : A.Succeeds) {stack : List SboStack} (hstack : stack.length = 8) :
    ∃ ops, tntUpdateContainer A stack = some (some ops) ∧ Holds ops [] := by
  have hwf := tntObject_wf hstack
  have hwf' : Obj.WF { tntObject stack with type := .sparse } :=
    ⟨hwf.buf, hwf.stack_length, hwf.alloc_ge, hwf.size_le⟩
  obtain ⟨rv, ops, hadd, hrv, hholds⟩ := begin_holds hA hwf' rfl rfl rfl
  refine ⟨ops, ?_, hholds⟩
  have htype : (tntObjectType (tntObject stack) .sparse).2 =
      { tntObject stack with type := .sparse } := rfl
  simp only [tntUpdateContainer, htype, hadd, bind, Option.bind_some, pure, if_neg hrv]

/-! ## §6 — runs.

From any history to a reset (`Usable`), and from the reset on with the exact contents (`Holds`). -/

/-- A container in any state it gets into: open, or closed (and perhaps written to after that). -/
structure Usable (ops : Obj) : Prop where
  wf : ops.WF
  mode : ops.type = .sparse
  frames : ops.frames = [⟨0, 0, .array⟩] ∧ 5 ≤ ops.bytes.length ∨ ops.frames = []

/-- A container that holds elements is usable, ... -/
theorem Holds.usable {vs : List Value} (h : Holds ops vs) : Usable ops :=
  ⟨h.wf, h.mode, .inl ⟨h.frames, h.length_ge⟩⟩

omit [Mpsize] in
/-- ... stays so under any call ... -/
theorem Usable.writes (h : Usable ops) {r : Option (Int × Obj)} {v : Value} (hr : Writes ops r v) :
    ∃ rv ops', r = some (rv, ops') ∧ rv ≠ -1 ∧ Usable ops' := by
  obtain ⟨bs, sb, rfl, hwf, hbytes, -⟩ := hr
  refine ⟨bs.length, _, rfl, by omega,
    ⟨hwf, h.wf.stack_length, h.wf.alloc_ge, h.wf.size_le⟩, h.mode, ?_⟩
  rcases h.frames with ⟨hframes, hlen⟩ | hframes
  · refine .inl ⟨hframes, ?_⟩
    show 5 ≤ sb.bytes.length
    rw [hbytes, List.length_append]
    omega
  · exact .inr hframes

/-- ... and when it is closed.  A container that is closed is written to as before, and what is
written then stands behind the array. -/
theorem Usable.close (hA : A.Succeeds) (h : Usable ops) :
    ∃ ops', tntUpdateContainerClose A ops = some (0, ops') ∧ Usable ops' := by
  rcases h.frames with ⟨hframes, hlen⟩ | hframes
  · obtain ⟨ops', hclose, hwf, hmode, hbuild⟩ := close_open hA h.wf h.mode hframes hlen
    exact ⟨ops', hclose, hwf, hmode, .inr (congrArg Build.frames hbuild)⟩
  · -- nothing is open: only the unused entry changes
    have hzero : ops.stackSize = 0 := by rw [← h.wf.frames_length, hframes]; rfl
    have hlength := h.wf.stack_length
    have hge := h.wf.alloc_ge
    obtain ⟨e, stack, hstack⟩ : ∃ e stack, ops.stack = e :: stack :=
      List.exists_cons_of_length_pos (by omega)
    rw [hstack] at hlength
    refine ⟨{ ops with stack := { e with size := ops.s.wrcnt - 1 } :: stack }, ?_,
      ⟨h.wf.buf, hlength, hge, h.wf.size_le⟩, h.mode, .inr ?_⟩
    · simp only [tntUpdateContainerClose, hstack, tntObjectContainerClose, if_pos hzero, bind,
        Option.bind_some, pure]
    · show openFrames _ ops.stackSize = []
      rw [hzero]
      rfl

/-- All calls of the run are with texts of less than 2^32 - 5 bytes. -/
def ShortRun (steps : List (ObjAllocator × Step)) : Prop :=
  ∀ A c, (A, Step.call c) ∈ steps → c.Short

/-- All splices of the run fit. -/
def SizedRun (steps : List (ObjAllocator × Step)) : Prop :=
  ∀ A c, (A, Step.call c) ∈ steps → c.Sized

/-- One step of a container.  The last conjunct is why a reset begins a new container: whatever
`Usable` has forgotten, the reset makes good. -/
theorem Usable.step (hA : A.Succeeds) (h : Usable ops) {s : Step} (hshort : ∀ c, s = .call c → c.Short)
    (hsized : ∀ c, s = .call c → c.Sized) :
    ∃ rv ops', s.exec A ops = some (rv, some ops') ∧ s.Returns rv ∧ Usable ops' ∧
      (s = .reset → Holds ops' []) := by
  cases s with
  | call c =>
    by_cases hmeans : ∃ v, c.Means v
    · obtain ⟨v, hv⟩ := hmeans
      obtain ⟨rv, ops', hexec, hrv, husable⟩ := h.writes
        (c.exec_writes hA h.wf hv (hshort c rfl) (hsized c rfl))
      refine ⟨rv, ops', by rw [Step.exec, hexec]; rfl, ?_, husable, by simp⟩
      exact ⟨fun h => absurd h hrv, fun h => absurd hv (h v)⟩
    · rw [not_exists] at hmeans
      refine ⟨-1, ops, by rw [Step.exec, c.exec_refused hmeans]; rfl, ?_, h, by simp⟩
      exact ⟨fun _ => hmeans, fun _ => rfl⟩
  | close =>
    obtain ⟨ops', hclose, husable⟩ := h.close hA
    exact ⟨0, ops', by rw [Step.exec, hclose]; rfl, rfl, husable, by simp⟩
  | reset =>
    obtain ⟨ops', hreset, hholds⟩ := reset_holds hA h.wf
    exact ⟨0, ops', hreset, rfl, hholds.usable, fun _ => hholds⟩

/-- Steps before the last reset leave a container that can be used.  They matter for their return
values only. -/
theorem Usable.run {steps : List (ObjAllocator × Step)} (hA : ∀ p ∈ steps, p.1.Succeeds)
    (hshort : ShortRun steps) (hsized : SizedRun steps) (h : Usable ops) :
    ∃ rvs ops', runSteps steps (some ops) = some (rvs, some ops') ∧
      List.Forall₂ (fun p rv => p.2.Returns rv) steps rvs ∧ Usable ops' ∧
      (∀ A, steps.getLast? = some (A, .reset) → Holds ops' []) := by
  induction steps generalizing ops with
  | nil => exact ⟨[], ops, rfl, .nil, h, by simp⟩
  | cons p steps ih =>
    obtain ⟨B, s⟩ := p
    obtain ⟨rv, ops₁, hexec, hrv, husable, hreset⟩ := h.step (hA (B, s) List.mem_cons_self)
      (s := s) (fun c hc => hshort B c (by rw [hc]; exact List.mem_cons_self))
      (fun c hc => hsized B c (by rw [hc]; exact List.mem_cons_self))
    obtain ⟨rvs, ops', hrun, hrvs, husable', hlast⟩ := ih (fun p hp => hA p (.tail _ hp))
      (fun A c hc => hshort A c (.tail _ hc)) (fun A c hc => hsized A c (.tail _ hc)) husable
    refine ⟨rv :: rvs, ops', ?_, .cons hrv hrvs, husable', ?_⟩
    · simp only [runSteps, hexec, hrun, bind, Option.bind_some, pure]
    · intro A hA'
      cases steps with
      | nil =>
        obtain ⟨rfl, rfl⟩ := Prod.mk.inj (Option.some.inj hA')
        obtain ⟨-, hsame⟩ := Prod.mk.inj (Option.some.inj hrun)
        obtain rfl := Option.some.inj hsame
        exact hreset rfl
      | cons q steps => exact hlast A hA'

/-- The steps of the calls since the last reset. -/
def callSteps (calls : List (ObjAllocator × UpdateCall)) : List (ObjAllocator × Step) :=
  calls.map fun p => (p.1, .call p.2)

/-- The calls since the last reset: one element each, in order.  `Elements` says which calls those
are: a call that is refused adds no element, and the others add theirs in the order of the calls.
The run lemma of this module, by induction on the calls. -/
theorem Holds.run {calls : List (ObjAllocator × UpdateCall)} (hA : ∀ p ∈ calls, p.1.Succeeds)
    (hshort : ShortRun (callSteps calls)) (hsized : SizedRun (callSteps calls)) {vs : List Value}
    (h : Holds ops vs) :
    ∃ rvs ops' ws, runSteps (callSteps calls) (some ops) = some (rvs, some ops') ∧
      List.Forall₂ (fun p rv => p.2.Returns rv) (callSteps calls) rvs ∧
      Elements (calls.map Prod.snd) ws ∧ Holds ops' (vs ++ ws) := by
  induction calls generalizing ops vs with
  | nil => exact ⟨[], ops, [], rfl, .nil, .nil, by rwa [List.append_nil]⟩
  | cons p calls ih =>
    obtain ⟨B, c⟩ := p
    have hrest (ops₁ : Obj) (us : List Value) (h₁ : Holds ops₁ us) := ih
      (fun p hp => hA p (.tail _ hp)) (fun A c hc => hshort A c (.tail _ hc))
      (fun A c hc => hsized A c (.tail _ hc)) h₁
    by_cases hmeans : ∃ v, c.Means v
    · obtain ⟨v, hv⟩ := hmeans
      -- the call stands for an element, and writes it
      obtain ⟨rv, ops₁, hexec, hrv, hholds⟩ := h.writes (c.exec_writes (hA (B, c) List.mem_cons_self)
        h.wf hv (hshort B c List.mem_cons_self) (hsized B c List.mem_cons_self))
      obtain ⟨rvs, ops', ws, hrun, hrvs, hws, hholds'⟩ := hrest ops₁ (vs ++ [v]) hholds
      refine ⟨rv :: rvs, ops', v :: ws, ?_, .cons ?_ hrvs, .accepted hv hws, ?_⟩
      · simp only [callSteps] at hrun
        simp only [callSteps, List.map_cons, runSteps, Step.exec, hexec, hrun, bind, Option.bind_some,
          Option.map_some, pure]
      · exact ⟨fun h => absurd h hrv, fun h => absurd hv (h v)⟩
      · rwa [List.append_assoc, List.singleton_append] at hholds'
    · -- it stands for none, and is refused
      rw [not_exists] at hmeans
      obtain ⟨rvs, ops', ws, hrun, hrvs, hws, hholds'⟩ := hrest ops vs h
      refine ⟨-1 :: rvs, ops', ws, ?_, .cons ⟨fun _ => hmeans, fun _ => rfl⟩ hrvs,
        .refused hmeans hws, hholds'⟩
      simp only [callSteps] at hrun
      simp only [callSteps, List.map_cons, runSteps, Step.exec, c.exec_refused hmeans, hrun, bind,
        Option.bind_some, Option.map_some, pure]

/-- Runs one after the other.  This cuts a run at its last reset. -/
theorem runSteps_append {xs ys : List (ObjAllocator × Step)} {rvs : List Int} {o o' : Option Obj}
    (h : runSteps xs o = some (rvs, o')) :
    runSteps (xs ++ ys) o = (runSteps ys o').map fun r => (rvs ++ r.1, r.2) := by
  induction xs generalizing o rvs with
  | nil =>
    obtain ⟨rfl, rfl⟩ := Prod.mk.inj (Option.some.inj h)
    simp
  | cons p xs ih =>
    obtain ⟨A, s⟩ := p
    cases o with
    | none => exact absurd h (by simp [runSteps])
    | some ops =>
      simp only [runSteps, bind, Option.bind_eq_some_iff] at h
      obtain ⟨⟨rv, o₁⟩, hexec, ⟨rvs₁, o₂⟩, hrun, heq⟩ := h
      obtain ⟨rfl, rfl⟩ := Prod.mk.inj (Option.some.inj heq)
      simp only [List.cons_append, runSteps, hexec, bind, Option.bind_some, ih hrun]
      cases runSteps ys o₂ <;> rfl

/-- Where every call returns what it should, every splice fits.  This is the converse, read off the
return values: a splice that does not fit fails or is undefined, and so never returns what it
should. -/
theorem sizedRun_of_returns {steps : List (ObjAllocator × Step)} (hshort : ShortRun steps)
    {rvs : List Int} {o o' : Option Obj} (h : runSteps steps o = some (rvs, o'))
    (hrvs : List.Forall₂ (fun p rv => p.2.Returns rv) steps rvs) : SizedRun steps := by
  induction steps generalizing o rvs with
  | nil => exact fun A c hc => absurd hc (by simp)
  | cons p steps ih =>
    obtain ⟨B, s⟩ := p
    cases o with
    | none => exact absurd h (by simp [runSteps])
    | some ops =>
      simp only [runSteps, bind, Option.bind_eq_some_iff] at h
      obtain ⟨⟨rv, o₁⟩, hexec, ⟨rvs₁, o₂⟩, hrun, heq⟩ := h
      obtain ⟨rfl, rfl⟩ := Prod.mk.inj (Option.some.inj heq)
      obtain ⟨hrv, hrvs⟩ := List.forall₂_cons.mp hrvs
      intro A c hc
      rcases List.mem_cons.mp hc with heq | hc
      · obtain ⟨rfl, rfl⟩ := Prod.mk.inj heq
        by_contra hbig
        -- it is a splice, which stands for an element
        have hmeans : ∃ v, c.Means v := by
          cases c with
          | splice fieldno position offset buffer => exact ⟨_, .splice⟩
          | _ => exact absurd trivial hbig
        obtain ⟨v, hv⟩ := hmeans
        have hover : c.exec A ops = none ∨ c.exec A ops = some (-1, ops) :=
          c.exec_oversized (hshort A c List.mem_cons_self) hbig
        rcases hover with hnone | hrefused
        · rw [Step.exec, hnone] at hexec
          exact absurd hexec (by simp)
        · rw [Step.exec, hrefused] at hexec
          obtain ⟨rfl, -⟩ := Prod.mk.inj (Option.some.inj hexec)
          exact (hrv.mp rfl) v hv
      · exact ih (fun A c hc => hshort A c (.tail _ hc)) hrun hrvs A c hc

/-- The run leaves an array of exactly the elements its calls stand for. -/
def Counts (A : ObjAllocator) (stack : List SboStack) (steps : List (ObjAllocator × Step))
    (calls : List UpdateCall) : Prop :=
  ∃ ops rvs ops', tntUpdateContainer A stack = some (some ops) ∧
    runSteps steps (some ops) = some (rvs, some ops') ∧
    List.Forall₂ (fun p rv => p.2.Returns rv) steps rvs ∧
    tntObjectVerify ops'.bytes (some .array) = some 0 ∧
    ∃ vs, Elements calls vs ∧ Encodes (.array vs) ops'.bytes

/-- **Update containers count their operations**: after any history up to a reset, any calls and a
close, the container is an array with one element for every call that was not refused, and only
calls with a bad operator or an invalid value were; exactly if every splice fits into 32 bits.  The
array is told nothing when an operation is written; closing takes the number of writes on the stream
for the number of elements.  So the invariant is about that counter, and a reset has to bring it
back to where it starts. -/
theorem tntUpdate_counts_iff (hA : A.Succeeds) {stack : List SboStack} (hstack : stack.length = 8)
    {history : List (ObjAllocator × Step)}
    (hhistory : history = [] ∨ ∃ B, history.getLast? = some (B, .reset))
    {calls : List (ObjAllocator × UpdateCall)} {C : ObjAllocator}
    (hlen : calls.length < 2 ^ 32 - 1)
    (hall : ∀ p ∈ history ++ (callSteps calls ++ [(C, .close)]), p.1.Succeeds)
    (hshort : ShortRun (history ++ (callSteps calls ++ [(C, .close)]))) :
    Counts A stack (history ++ (callSteps calls ++ [(C, .close)])) (calls.map Prod.snd) ↔
      SizedRun (history ++ (callSteps calls ++ [(C, .close)])) := by
  constructor
  · rintro ⟨ops, rvs, ops', -, hrun, hrvs, -⟩
    exact sizedRun_of_returns hshort hrun hrvs
  · intro hsized
    obtain ⟨ops, hnew, hholds⟩ := container_holds hA hstack
    obtain ⟨rvs₁, ops₁, hrun₁, hrvs₁, -, hlast⟩ := hholds.usable.run
      (fun p hp => hall p (List.mem_append_left _ hp))
      (fun A c hc => hshort A c (List.mem_append_left _ hc))
      (fun A c hc => hsized A c (List.mem_append_left _ hc))
    have hholds₁ : Holds ops₁ [] := by
      rcases hhistory with rfl | ⟨B, hB⟩
      · obtain ⟨-, hsame⟩ := Prod.mk.inj (Option.some.inj hrun₁)
        rwa [← Option.some.inj hsame]
      · exact hlast B hB
    have hcalls : ∀ p ∈ calls, p.1.Succeeds := fun p hp => hall (p.1, .call p.2)
      (List.mem_append_right _ (List.mem_append_left _ (List.mem_map_of_mem hp)))
    obtain ⟨rvs₂, ops₂, ws, hrun₂, hrvs₂, hws, hholds₂⟩ := hholds₁.run hcalls
      (fun A c hc => hshort A c (List.mem_append_right _ (List.mem_append_left _ hc)))
      (fun A c hc => hsized A c (List.mem_append_right _ (List.mem_append_left _ hc)))
    rw [List.nil_append] at hholds₂
    have hfew := hws.length_le
    rw [List.length_map] at hfew
    obtain ⟨ops', hclose, henc⟩ := close_holds (hall (C, .close) (by simp)) hholds₂ (by omega)
    -- the three parts of the run, one behind the other
    have hrun : runSteps (history ++ (callSteps calls ++ [(C, .close)])) (some ops) =
        some (rvs₁ ++ (rvs₂ ++ [0]), some ops') := by
      rw [runSteps_append hrun₁, runSteps_append hrun₂]
      simp only [runSteps, Step.exec, hclose, Option.map_some, bind, Option.bind_some, pure]
    exact ⟨ops, _, ops', hnew, hrun,
      List.rel_append hrvs₁ (List.rel_append hrvs₂ (.cons rfl .nil)),
      tntObjectVerify_array_iff.mpr ⟨ws, henc⟩, ws, hws, henc⟩

/-- A text that is just short enough does not fit with its arguments.  Six bytes short of `2^32`,
and the position, the offset and the header of the text are what makes the sum wrap around. -/
theorem splice_oversized {buffer : Bytes} (h : buffer.length = 2 ^ 32 - 6) :
    (UpdateCall.splice 1 0 0 buffer).Short ∧ ¬ (UpdateCall.splice 1 0 0 buffer).Sized ∧
      spliceSize 0 0 buffer = 1 := by
  have hshort : buffer.length < 2 ^ 32 - 5 := by omega
  have hform : (strForm.min buffer.length).length = 5 := by
    rw [h]
    rfl
  have hstr : (encode (.str buffer)).length = 5 + buffer.length := by
    show (strForm.min buffer.length ++ buffer).length = _
    rw [List.length_append, hform]
  have hdata : (spliceData 0 0 buffer).length = 2 ^ 32 + 1 := by
    rw [spliceData, List.length_append, hstr, h]
    rfl
  refine ⟨hshort, ?_, ?_⟩
  · rw [UpdateCall.sized_splice, hdata]
    omega
  · rw [spliceSize_eq 0 0 hshort, hdata]
    rfl

end Calls

/-- A bit operation, an arithmetic operation with the operator of a bit operation, and a splice. -/
def threeCalls : List (ObjAllocator × UpdateCall) :=
  [(zeroingObj, .bit 1 tntUopAnd 3), (zeroingObj, .arithInt 2 tntUopAnd 3),
    (zeroingObj, .splice 3 0 1 [0x61])]

/-- ... on a container that was reset. -/
theorem tntUpdate_counts_splice :
    @Counts Mpsize.reference zeroingObj zeroStack
      ([(zeroingObj, .reset)] ++ (callSteps threeCalls ++ [(zeroingObj, .close)]))
      (threeCalls.map Prod.snd) := by
  have hsteps : ∀ p ∈ [(zeroingObj, Step.reset)] ++ (callSteps threeCalls ++ [(zeroingObj, .close)]),
      p.1 = zeroingObj ∧ ∀ c, p.2 = .call c → c.Short ∧ c.Sized := by
    intro p hp
    simp only [threeCalls, callSteps, List.map_cons, List.map_nil, List.cons_append, List.nil_append,
      List.mem_cons, List.not_mem_nil, or_false] at hp
    rcases hp with rfl | rfl | rfl | rfl | rfl
    · exact ⟨rfl, fun c hc => absurd hc (by simp)⟩
    · exact ⟨rfl, fun c hc => Step.call.inj hc ▸ ⟨trivial, trivial⟩⟩
    · exact ⟨rfl, fun c hc => Step.call.inj hc ▸ ⟨trivial, trivial⟩⟩
    · exact ⟨rfl, fun c hc => Step.call.inj hc ▸ ⟨by simp [UpdateCall.Short],
        UpdateCall.sized_splice.mpr (by decide)⟩⟩
    · exact ⟨rfl, fun c hc => absurd hc (by simp)⟩
  refine (@tntUpdate_counts_iff Mpsize.reference zeroingObj zeroingObj_succeeds zeroStack rfl _
    (.inr ⟨zeroingObj, rfl⟩) threeCalls zeroingObj (by decide) ?_ ?_).mpr ?_
  · intro p hp
    rw [(hsteps p hp).1]
    exact zeroingObj_succeeds
  · exact fun A c hc => ((hsteps _ hc).2 c rfl).1
  · exact fun A c hc => ((hsteps _ hc).2 c rfl).2

/-- The block for it has one byte. -/
theorem tntUpdateSplice_wraps_around :
    @spliceSize Mpsize.reference 0 0 (List.replicate (2 ^ 32 - 6) 0x61) = 1 ∧
      (UpdateCall.splice 1 0 0 (List.replicate (2 ^ 32 - 6) 0x61)).Short ∧
      ¬ @Counts Mpsize.reference zeroingObj zeroStack
        [(zeroingObj, .call (.splice 1 0 0 (List.replicate (2 ^ 32 - 6) 0x61))), (zeroingObj, .close)]
        [.splice 1 0 0 (List.replicate (2 ^ 32 - 6) 0x61)] := by
  have hlen : (List.replicate (2 ^ 32 - 6) (0x61 : UInt8)).length = 2 ^ 32 - 6 :=
    List.length_replicate
  generalize List.replicate (2 ^ 32 - 6) (0x61 : UInt8) = buffer at hlen ⊢
  obtain ⟨hshort, hbig, hsize⟩ := @splice_oversized Mpsize.reference buffer hlen
  refine ⟨hsize, hshort, ?_⟩
  rintro ⟨ops, rvs, ops', -, hrun, hrvs, -⟩
  refine hbig (@sizedRun_of_returns Mpsize.reference _ ?_ _ _ _ hrun hrvs zeroingObj _
    List.mem_cons_self)
  intro A c hc
  rcases List.mem_cons.mp hc with heq | hc
  · obtain ⟨-, hcall⟩ := Prod.mk.inj heq
    obtain rfl := Step.call.inj hcall
    exact hshort
  · exact absurd hc (by simp)

end TarantoolC.Update
