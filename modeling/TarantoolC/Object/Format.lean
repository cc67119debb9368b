/-
# TarantoolC.Object.Format — `tnt_object_vformat` (`tnt/tnt_object.c`).

A format string is walked character by character; a bracket opens or closes a container, a `%`
takes arguments off the `va_list` and adds a value, `NIL` adds a nil, everything else is passed
over.  The first call that fails ends it.

An argument is what the caller has put there, type included: taking it as another type is undefined
(except that a signed and an unsigned type of the same width stand for each other where both have
the value), and so is a conversion the function does not know (it runs into an `assert`).

The state of the loop is the rest of the format, the rest of the arguments and the object; its
result says whether the loop came to the end.  The specifiers are data (`Conv`): `Conv.call` takes
the arguments of one off the list, with their C types, and gives the call that is made.  `%p` copies
a complete value of the caller, whose end is found by `mp_next`; `%.*s`, `%s` and `%.*p` have
lengths or ends of their own.

Numbers with a fractional part are bits; the conversion of a `double` to a `float` that `%f` asks
for is a parameter, and nothing depends on it.
-/
import TarantoolC.Object.Model

namespace TarantoolC.Object

open MsgPack

/-! ## §1 — arguments and conversions. -/

/-- An argument of the variable part of a call.  A `float` arrives as a `double`, anything shorter
than `int` as `int`; a string is the memory its pointer leads to. -/
inductive VaArg where
  | int (v : Int32)
  | uint (v : UInt32)
  | long (v : Int64)
  | ulong (v : UInt64)
  | llong (v : Int64)
  | ullong (v : UInt64)
  | double (bits : UInt64)
  | str (mem : Bytes)
  deriving Repr, DecidableEq

/-- `va_arg(vl, int)`. -/
def VaArg.asInt : VaArg → Option Int32
  | .int v => some v
  | .uint v => if v.toNat < 2 ^ 31 then some v.toInt32 else none
  | _ => none

/-- `va_arg(vl, unsigned int)`. -/
def VaArg.asUint : VaArg → Option UInt32
  | .uint v => some v
  | .int v => if 0 ≤ v.toInt then some v.toUInt32 else none
  | _ => none

/-- `va_arg(vl, long)`. -/
def VaArg.asLong : VaArg → Option Int64
  | .long v => some v
  | .ulong v => if v.toNat < 2 ^ 63 then some v.toInt64 else none
  | _ => none

/-- `va_arg(vl, unsigned long)`. -/
def VaArg.asUlong : VaArg → Option UInt64
  | .ulong v => some v
  | .long v => if 0 ≤ v.toInt then some v.toUInt64 else none
  | _ => none

/-- `va_arg(vl, long long)`. -/
def VaArg.asLlong : VaArg → Option Int64
  | .llong v => some v
  | .ullong v => if v.toNat < 2 ^ 63 then some v.toInt64 else none
  | _ => none

/-- `va_arg(vl, unsigned long long)`. -/
def VaArg.asUllong : VaArg → Option UInt64
  | .ullong v => some v
  | .llong v => if 0 ≤ v.toInt then some v.toUInt64 else none
  | _ => none

/-- What stands behind a `%`. -/
inductive Conv where
  | int | uint | long | ulong | llong | ullong
  | str | strn | float | double | bool | percent
  deriving Repr, DecidableEq

/-- The conversion that starts here, and how far it goes beyond its first character. -/
def conversion : List Char → Option (Conv × Nat)
  | 'd' :: _ => some (.int, 0)
  | 'i' :: _ => some (.int, 0)
  | 'u' :: _ => some (.uint, 0)
  | 's' :: _ => some (.str, 0)
  | '.' :: '*' :: 's' :: _ => some (.strn, 2)
  | 'f' :: _ => some (.float, 0)
  | 'l' :: 'f' :: _ => some (.double, 1)
  | 'b' :: _ => some (.bool, 0)
  | 'l' :: 'd' :: _ => some (.long, 1)
  | 'l' :: 'i' :: _ => some (.long, 1)
  | 'l' :: 'u' :: _ => some (.ulong, 1)
  | 'l' :: 'l' :: 'd' :: _ => some (.llong, 2)
  | 'l' :: 'l' :: 'i' :: _ => some (.llong, 2)
  | 'l' :: 'l' :: 'u' :: _ => some (.ullong, 2)
  | 'h' :: 'd' :: _ => some (.int, 1)
  | 'h' :: 'i' :: _ => some (.int, 1)
  | 'h' :: 'u' :: _ => some (.uint, 1)
  | 'h' :: 'h' :: 'd' :: _ => some (.int, 2)
  | 'h' :: 'h' :: 'i' :: _ => some (.int, 2)
  | 'h' :: 'h' :: 'u' :: _ => some (.uint, 2)
  | '%' :: _ => some (.percent, 0)
  | _ => none

/-- The string at a pointer, up to its terminator. -/
def cstring (mem : Bytes) : Option Bytes :=
  if 0 ∈ mem then some (mem.takeWhile (· ≠ 0)) else none

/-- The first `len` bytes at a pointer. -/
def counted (len : UInt32) (mem : Bytes) : Option CStr :=
  if len.toNat ≤ mem.length then
    some ⟨mem.take len.toNat, by
      have h := len.toNat_lt
      rw [List.length_take]
      omega⟩
  else none

section Format

-- the platform's conversion from `double` to `float`, on bit patterns
variable (toFloat : UInt64 → UInt32)

/-- The call a conversion makes, if it makes one, and the arguments it leaves. -/
def Conv.call : Conv → List VaArg → Option (Option Call × List VaArg)
  | .int, arg :: args => do
    let v ← arg.asInt
    return (some (.addInt v.toInt64), args)
  | .uint, arg :: args => do
    let v ← arg.asUint
    return (some (.addUint v.toUInt64), args)
  | .long, arg :: args => do
    let v ← arg.asLong
    return (some (.addInt v), args)
  | .ulong, arg :: args => do
    let v ← arg.asUlong
    return (some (.addUint v), args)
  | .llong, arg :: args => do
    let v ← arg.asLlong
    return (some (.addInt v), args)
  | .ullong, arg :: args => do
    let v ← arg.asUllong
    return (some (.addUint v), args)
  | .str, .str mem :: args => do
    let s ← cstring mem
    return (some (.addStr (strzPrefix s)), args)
  | .strn, arg :: .str mem :: args => do
    let len ← arg.asUint
    let s ← counted len mem
    return (some (.addStr s), args)
  | .float, .double bits :: args => some (some (.addFloat (toFloat bits)), args)
  | .double, .double bits :: args => some (some (.addDouble bits), args)
  | .bool, arg :: args => do
    let v ← arg.asInt
    return (some (.addBool (if v = 0 then 0 else 1)), args)
  | .percent, args => some (none, args)
  | _, _ => none

/-! ## §2 — the loop. -/

/-- One turn of the loop: the call it makes, how far `f` moves besides the `f++` of the loop, and
the arguments it leaves. -/
def directive : List Char → List VaArg → Option (Option Call × Nat × List VaArg)
  | '[' :: _, args => some (some (.addArray 0), 0, args)
  | '{' :: _, args => some (some (.addMap 0), 0, args)
  | ']' :: _, args => some (some .containerClose, 0, args)
  | '}' :: _, args => some (some .containerClose, 0, args)
  | '%' :: f, args => do
    let (conv, more) ← conversion f
    let (call, args) ← conv.call toFloat args
    return (call, 1 + more, args)
  | 'N' :: 'I' :: 'L' :: _, args => some (some .addNil, 2, args)
  | _, args => some (none, 0, args)

variable [Msgpuck]

/-- The loop of `tnt_object_vformat`; `skip` characters have been dealt with already.  The `k`th
call meets the allocator `A k`. -/
def vformatLoop (A : Nat → ObjAllocator) :
    List Char → Nat → List VaArg → Nat → Int → Obj → Option (Int × Obj)
  | [], _, _, _, result, o => some (result, o)
  | _ :: f, skip + 1, args, k, result, o => vformatLoop A f skip args k result o
  | c :: f, 0, args, k, result, o => do
    let (call, skip, args) ← directive toFloat (c :: f) args
    match call with
    | none => vformatLoop A f skip args k result o
    | some call =>
      let (rv, o) ← call.exec (A k) o
      if rv = -1 then return (-1, o)
      vformatLoop A f skip args (k + 1) (result + rv) o

/-- `tnt_object_vformat`, and `tnt_object_format` around it. -/
def tntObjectVformat (A : Nat → ObjAllocator) (o : Obj) (fmt : List Char) (args : List VaArg) :
    Option (Int × Obj) :=
  let (rc, o) := tntObjectType o .packed
  if rc = -1 then some (-1, o) else vformatLoop toFloat A fmt 0 args 0 0 o

end Format

end TarantoolC.Object
