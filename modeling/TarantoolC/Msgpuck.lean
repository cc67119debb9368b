/-
# TarantoolC.Msgpuck — the msgpuck functions the client calls, as a CONTRACT.

msgpuck (`src/third_party/msgpuck`) is a git submodule and its sources are not part of the tree, so
nothing is translated from it.  What the client relies on is stated instead: a class with one field
per function and one law per field, each law saying that the function follows the MessagePack
format.  Everything below is proved for every instance; `Msgpuck.reference` shows that the laws can
be met together and is what a concrete run is evaluated on.

Conventions.  An encoder `mp_encode_x(data, …)` is the byte string it stores at `data`.  A reader
gets the memory from its cursor to the end of the string it may look at, and returns how far the
cursor moves.  `none` from `mpCheck` is its documented failure; `none` from any other reader means
the call is OUTSIDE its contract (no complete value or header of that type stands there), which in C
is a read past the end or the unreachable branch of the decoder.

Two kinds of laws, then.  A law of an encoder gives its bytes as a function of its argument (the
shortest form, as msgpuck documents), so that two calls of it can be compared; a law of a reader is
an equivalence with `Front` or `Header` of `MsgPack.Decode`, so that it says both what is read and
that nothing else is.  No law speaks of memory beyond the string it is given: a reader that is
handed a string in which no value is complete returns `none`, and a model that goes on from there
has left the contract and must say so.

`mpCheck` is the one reader with a failure of its own.  Its law is that it measures the value in
front if there is one and fails if not; that is what lets the models of this project say what the
code does on ANY bytes from the network.
-/
import TarantoolC.MsgPack.Encode
import TarantoolC.MsgPack.Decode

namespace TarantoolC

open MsgPack

/-- The msgpuck interface with its laws. -/
class Msgpuck where
  mpEncodeNil : Bytes
  mpEncodeBool : Bool → Bytes
  mpEncodeUint : UInt64 → Bytes
  mpEncodeInt : Int64 → Bytes
  mpEncodeFloat : UInt32 → Bytes
  mpEncodeDouble : UInt64 → Bytes
  mpEncodeStrl : UInt32 → Bytes
  mpEncodeBinl : UInt32 → Bytes
  mpEncodeArray : UInt32 → Bytes
  mpEncodeMap : UInt32 → Bytes
  mpStoreU8 : UInt8 → Bytes
  mpStoreU32 : UInt32 → Bytes
  mpStoreU64 : UInt64 → Bytes
  mpSizeofArray : UInt32 → Nat
  mpSizeofMap : UInt32 → Nat
  mpTypeof : UInt8 → Ty
  mpCheck : Bytes → Option Nat
  mpNext : Bytes → Option Nat
  mpDecodeUint : Bytes → Option (Nat × Nat)
  mpDecodeStr : Bytes → Option (Nat × Nat)
  mpDecodeArray : Bytes → Option (Nat × Nat)
  mpDecodeMap : Bytes → Option (Nat × Nat)
  mpEncodeNil_eq : mpEncodeNil = [0xc0]
  mpEncodeBool_eq : ∀ b, mpEncodeBool b = [if b then 0xc3 else 0xc2]
  mpEncodeUint_eq : ∀ n, mpEncodeUint n = uintForm.min n.toNat
  -- `mp_encode_int` asserts that its argument is negative
  mpEncodeInt_eq : ∀ z, z.toInt < 0 → mpEncodeInt z = negBytes z.toInt
  mpEncodeFloat_eq : ∀ bits, mpEncodeFloat bits = 0xca :: be 4 bits.toNat
  mpEncodeDouble_eq : ∀ bits, mpEncodeDouble bits = 0xcb :: be 8 bits.toNat
  mpEncodeStrl_eq : ∀ n, mpEncodeStrl n = strForm.min n.toNat
  mpEncodeBinl_eq : ∀ n, mpEncodeBinl n = binForm.min n.toNat
  mpEncodeArray_eq : ∀ n, mpEncodeArray n = arrayForm.min n.toNat
  mpEncodeMap_eq : ∀ n, mpEncodeMap n = mapForm.min n.toNat
  mpStoreU8_eq : ∀ n, mpStoreU8 n = [n]
  mpStoreU32_eq : ∀ n, mpStoreU32 n = be 4 n.toNat
  mpStoreU64_eq : ∀ n, mpStoreU64 n = be 8 n.toNat
  mpSizeofArray_eq : ∀ n, mpSizeofArray n = (arrayForm.min n.toNat).length
  mpSizeofMap_eq : ∀ n, mpSizeofMap n = (mapForm.min n.toNat).length
  mpTypeof_eq : ∀ b t, (lead b).ty = some t → mpTypeof b = t
  mpCheck_iff : ∀ mem k, mpCheck mem = some k ↔ ∃ v, Front mem v k
  mpNext_iff : ∀ mem k, mpNext mem = some k ↔ ∃ v, Front mem v k
  mpDecodeUint_iff : ∀ mem n k, mpDecodeUint mem = some (n, k) ↔ Header .uint mem n k
  mpDecodeStr_iff : ∀ mem n k, mpDecodeStr mem = some (n, k) ↔ Header .str mem n k
  mpDecodeArray_iff : ∀ mem n k, mpDecodeArray mem = some (n, k) ↔ Header .array mem n k
  mpDecodeMap_iff : ∀ mem n k, mpDecodeMap mem = some (n, k) ↔ Header .map mem n k

namespace Msgpuck

attribute [simp] mpEncodeNil_eq mpEncodeBool_eq mpEncodeUint_eq mpEncodeFloat_eq mpEncodeDouble_eq
  mpEncodeStrl_eq mpEncodeBinl_eq mpEncodeArray_eq mpEncodeMap_eq mpStoreU8_eq mpStoreU32_eq
  mpStoreU64_eq mpSizeofArray_eq mpSizeofMap_eq

/-! ## The readers on a cursor that stands at an encoding. -/

section Readers

variable [Msgpuck] {v : Value} {bs : Bytes}

/-- The readers at an encoding with anything behind it: the check measures it, ... -/
theorem mpCheck_front (h : Encodes v bs) (rest : Bytes) : mpCheck (bs ++ rest) = some bs.length :=
  (mpCheck_iff _ _).mpr ⟨v, bs, rest, rfl, h, rfl⟩

/-- ... `mp_next` passes over it, ... -/
theorem mpNext_front (h : Encodes v bs) (rest : Bytes) : mpNext (bs ++ rest) = some bs.length :=
  (mpNext_iff _ _).mpr ⟨v, bs, rest, rfl, h, rfl⟩

/-- ... its first byte tells its type, ... -/
theorem mpTypeof_front {b : UInt8} (h : Encodes v (b :: bs)) : mpTypeof b = v.ty :=
  mpTypeof_eq b v.ty h.lead_ty

/-- ... and a number is read in whatever width it is written. -/
theorem mpDecodeUint_front {n : Nat} (h : Encodes (.uint n) bs) (rest : Bytes) :
    mpDecodeUint (bs ++ rest) = some (n, bs.length) :=
  (mpDecodeUint_iff _ _ _).mpr (Header.of_uint h rest)

end Readers

/-! ## The laws have a model. -/

def leadUint : Lead → Option Len
  | .uint l => some l
  | _ => none

def leadStr : Lead → Option Len
  | .str l => some l
  | _ => none

def leadArray : Lead → Option Len
  | .array l => some l
  | _ => none

def leadMap : Lead → Option Len
  | .map l => some l
  | _ => none

/-- msgpuck as the format itself. -/
@[reducible] def reference : Msgpuck where
  mpEncodeNil := [0xc0]
  mpEncodeBool b := [if b then 0xc3 else 0xc2]
  mpEncodeUint n := uintForm.min n.toNat
  mpEncodeInt z := negBytes z.toInt
  mpEncodeFloat bits := 0xca :: be 4 bits.toNat
  mpEncodeDouble bits := 0xcb :: be 8 bits.toNat
  mpEncodeStrl n := strForm.min n.toNat
  mpEncodeBinl n := binForm.min n.toNat
  mpEncodeArray n := arrayForm.min n.toNat
  mpEncodeMap n := mapForm.min n.toNat
  mpStoreU8 n := [n]
  mpStoreU32 n := be 4 n.toNat
  mpStoreU64 n := be 8 n.toNat
  mpSizeofArray n := (arrayForm.min n.toNat).length
  mpSizeofMap n := (mapForm.min n.toNat).length
  mpTypeof b := (lead b).ty.getD .ext
  mpCheck := frontLength
  mpNext := frontLength
  mpDecodeUint := readHeader leadUint
  mpDecodeStr := readHeader leadStr
  mpDecodeArray := readHeader leadArray
  mpDecodeMap := readHeader leadMap
  mpEncodeNil_eq := rfl
  mpEncodeBool_eq _ := rfl
  mpEncodeUint_eq _ := rfl
  mpEncodeInt_eq _ _ := rfl
  mpEncodeFloat_eq _ := rfl
  mpEncodeDouble_eq _ := rfl
  mpEncodeStrl_eq _ := rfl
  mpEncodeBinl_eq _ := rfl
  mpEncodeArray_eq _ := rfl
  mpEncodeMap_eq _ := rfl
  mpStoreU8_eq _ := rfl
  mpStoreU32_eq _ := rfl
  mpStoreU64_eq _ := rfl
  mpSizeofArray_eq _ := rfl
  mpSizeofMap_eq _ := rfl
  mpTypeof_eq b t h := by rw [h]; rfl
  mpCheck_iff _ _ := frontLength_eq_some_iff
  mpNext_iff _ _ := frontLength_eq_some_iff
  mpDecodeUint_iff _ _ _ := readHeader_eq_some_iff fun x l => by cases x <;> simp [leadUint]
  mpDecodeStr_iff _ _ _ := readHeader_eq_some_iff fun x l => by cases x <;> simp [leadStr]
  mpDecodeArray_iff _ _ _ := readHeader_eq_some_iff fun x l => by cases x <;> simp [leadArray]
  mpDecodeMap_iff _ _ _ := readHeader_eq_some_iff fun x l => by cases x <;> simp [leadMap]

end Msgpuck

end TarantoolC
