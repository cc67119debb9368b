/-
# TarantoolC.MsgPack.Format — the MessagePack format as a RELATION between values and byte strings.

The format is not a function from values to bytes: a `uint` 5 may be written as the single byte
`05`, or as `cc 05`, or as `cf 00 … 05`, and a length or a count has the same freedom.  So the
specification is the relation `Encodes v bs` ("`bs` is one encoding of `v`"), and everything an
encoder or a decoder promises is stated against it.

The table of lead bytes is the function `lead`.  Because it is a FUNCTION of the first byte, no two
rules of `Encodes` compete for one string; unambiguity (`MsgPack.Decode`) rests on that and on
nothing else.

Nothing here names a program: values, big-endian numbers, lead bytes, the relation.

The layers, bottom up:

* numbers — `be` writes the low bytes of a number, `beNat` reads them; on strings of `k` bytes the
  two are inverse as long as the number is below `256 ^ k` (`beNat_be`, `beNat_lt`);
* values — the inductive type `Value`, with strings as bytes, floats as their bits (nothing here
  computes with them) and maps as lists of pairs in the order they are written, since nothing in the
  format forbids a key to come twice;
* lead bytes — what each of the 256 first bytes announces (`Lead`), and where the number, length or
  count that it announces is kept (`Len`);
* the relation — `Encodes` and `EncodesAll`, mutually, one rule for each kind of lead byte.  A map
  is the sequence of its keys and values (`flat`), so that one relation on sequences serves arrays,
  maps and whole bodies of messages.

A value that no encoding exists for (a number of more than 64 bits, a string of `2 ^ 32` bytes) is a
`Value` like any other; the relation is empty on it, and `Value.Fits` (in `MsgPack.Encode`) names
the others.
-/
import Mathlib

namespace TarantoolC.MsgPack

abbrev Bytes := List UInt8

/-! ## §1 — big-endian numbers. -/

/-- `k` big-endian bytes of `n` (the low `8·k` bits). -/
def be : Nat → Nat → Bytes
  | 0, _ => []
  | k + 1, n => UInt8.ofNat (n / 256 ^ k) :: be k n

/-- The number a big-endian byte string denotes. -/
def beNat : Bytes → Nat
  | [] => 0
  | b :: bs => b.toNat * 256 ^ bs.length + beNat bs

@[simp] theorem be_length (k n : Nat) : (be k n).length = k := by
  induction k with
  | zero => rfl
  | succ k ih => simp [be, ih]

/-- `k` bytes say a number below `256 ^ k`, whatever they are. -/
theorem beNat_lt (bs : Bytes) : beNat bs < 256 ^ bs.length := by
  induction bs with
  | nil => simp [beNat]
  | cons b bs ih =>
    have hb : b.toNat + 1 ≤ 256 := b.toNat_lt
    calc beNat (b :: bs) = b.toNat * 256 ^ bs.length + beNat bs := rfl
      _ < b.toNat * 256 ^ bs.length + 256 ^ bs.length := by omega
      _ = (b.toNat + 1) * 256 ^ bs.length := by ring
      _ ≤ 256 * 256 ^ bs.length := Nat.mul_le_mul_right _ hb
      _ = 256 ^ (b :: bs).length := by rw [List.length_cons, pow_succ, mul_comm]

/-- `be` keeps the low `8·k` bits, whatever the number. -/
theorem beNat_be_mod (k n : Nat) : beNat (be k n) = n % 256 ^ k := by
  induction k with
  | zero => simp [be, beNat, Nat.mod_one]
  | succ k ih =>
    have hhead : (UInt8.ofNat (n / 256 ^ k)).toNat = n / 256 ^ k % 256 := by simp
    simp only [be, beNat, be_length, ih, hhead]
    rw [pow_succ, Nat.mod_mul, mul_comm (n / 256 ^ k % 256), add_comm]

/-- What is written is read back, if it fits the width. -/
theorem beNat_be {k n : Nat} (h : n < 256 ^ k) : beNat (be k n) = n := by
  rw [beNat_be_mod, Nat.mod_eq_of_lt h]

/-! ## §2 — values. -/

/-- A MessagePack value.  `int` is the signed family of formats: encoders use it for negative
numbers only, while a decoder may meet a non-negative number in it.  `float` and `double` are bit
patterns, `ext` carries its type byte. -/
inductive Value where
  | nil
  | bool (b : Bool)
  | uint (n : Nat)
  | int (z : Int)
  | float (bits : Nat)
  | double (bits : Nat)
  | str (s : Bytes)
  | bin (s : Bytes)
  | array (xs : List Value)
  | map (kvs : List (Value × Value))
  | ext (ty : UInt8) (s : Bytes)
  deriving Repr, Inhabited

/-- The type tag a reader learns from the first byte of a value. -/
inductive Ty where
  | nil | uint | int | str | bin | array | map | bool | float | double | ext
  deriving Repr, DecidableEq

/-- The type of a value. -/
def Value.ty : Value → Ty
  | .nil => .nil
  | .bool _ => .bool
  | .uint _ => .uint
  | .int _ => .int
  | .float _ => .float
  | .double _ => .double
  | .str _ => .str
  | .bin _ => .bin
  | .array _ => .array
  | .map _ => .map
  | .ext _ _ => .ext

theorem Value.eq_uint_of_ty {v : Value} (h : v.ty = .uint) : ∃ n, v = .uint n := by
  cases v with
  | uint n => exact ⟨n, rfl⟩
  | _ => exact absurd h (by simp [Value.ty])

theorem Value.eq_str_of_ty {v : Value} (h : v.ty = .str) : ∃ s, v = .str s := by
  cases v with
  | str s => exact ⟨s, rfl⟩
  | _ => exact absurd h (by simp [Value.ty])

theorem Value.eq_array_of_ty {v : Value} (h : v.ty = .array) : ∃ xs, v = .array xs := by
  cases v with
  | array xs => exact ⟨xs, rfl⟩
  | _ => exact absurd h (by simp [Value.ty])

theorem Value.eq_map_of_ty {v : Value} (h : v.ty = .map) : ∃ kvs, v = .map kvs := by
  cases v with
  | map kvs => exact ⟨kvs, rfl⟩
  | _ => exact absurd h (by simp [Value.ty])

/-- The children of a map in the order they are written: key, value, key, value, … -/
def flat : List (Value × Value) → List Value
  | [] => []
  | (k, v) :: kvs => k :: v :: flat kvs

/-- A map has twice as many children as pairs. -/
@[simp] theorem flat_length (kvs : List (Value × Value)) : (flat kvs).length = 2 * kvs.length := by
  induction kvs with
  | nil => rfl
  | cons kv kvs ih => obtain ⟨k, v⟩ := kv; simp only [flat, List.length_cons, ih]; ring

/-! ## §3 — lead bytes. -/

/-- Where a number, a length or a count is kept: in the lead byte itself, or in `k` big-endian
bytes after it. -/
inductive Len where
  | fix (n : Nat)
  | wide (k : Nat)
  deriving Repr, DecidableEq

/-- What a first byte announces. -/
inductive Lead where
  | nil
  | never
  | bool (b : Bool)
  | uint (l : Len)
  | negfix (z : Int)
  | int (k : Nat)
  | float
  | double
  | str (l : Len)
  | bin (l : Len)
  | array (l : Len)
  | map (l : Len)
  | ext (l : Len)
  deriving Repr, DecidableEq

/-- The lead-byte table of the format. -/
def lead (b : UInt8) : Lead :=
  let n := b.toNat
  if n < 0x80 then .uint (.fix n)
  else if n < 0x90 then .map (.fix (n - 0x80))
  else if n < 0xa0 then .array (.fix (n - 0x90))
  else if n < 0xc0 then .str (.fix (n - 0xa0))
  else if 0xe0 ≤ n then .negfix (n - 256 : Int)
  else match n with
    | 0xc0 => .nil
    | 0xc2 => .bool false
    | 0xc3 => .bool true
    | 0xc4 => .bin (.wide 1)
    | 0xc5 => .bin (.wide 2)
    | 0xc6 => .bin (.wide 4)
    | 0xc7 => .ext (.wide 1)
    | 0xc8 => .ext (.wide 2)
    | 0xc9 => .ext (.wide 4)
    | 0xca => .float
    | 0xcb => .double
    | 0xcc => .uint (.wide 1)
    | 0xcd => .uint (.wide 2)
    | 0xce => .uint (.wide 4)
    | 0xcf => .uint (.wide 8)
    | 0xd0 => .int 1
    | 0xd1 => .int 2
    | 0xd2 => .int 4
    | 0xd3 => .int 8
    | 0xd4 => .ext (.fix 1)
    | 0xd5 => .ext (.fix 2)
    | 0xd6 => .ext (.fix 4)
    | 0xd7 => .ext (.fix 8)
    | 0xd8 => .ext (.fix 16)
    | 0xd9 => .str (.wide 1)
    | 0xda => .str (.wide 2)
    | 0xdb => .str (.wide 4)
    | 0xdc => .array (.wide 2)
    | 0xdd => .array (.wide 4)
    | 0xde => .map (.wide 2)
    | 0xdf => .map (.wide 4)
    | _ => .never          -- 0xc1

/-- The type a lead byte announces; `0xc1` announces none. -/
def Lead.ty : Lead → Option Ty
  | .nil => some .nil
  | .never => none
  | .bool _ => some .bool
  | .uint _ => some .uint
  | .negfix _ => some .int
  | .int _ => some .int
  | .float => some .float
  | .double => some .double
  | .str _ => some .str
  | .bin _ => some .bin
  | .array _ => some .array
  | .map _ => some .map
  | .ext _ => some .ext

/-- `l.Holds n ds`: after a lead byte with length rule `l`, the bytes `ds` say `n`. -/
def Len.Holds : Len → Nat → Bytes → Prop
  | .fix m, n, ds => n = m ∧ ds = []
  | .wide k, n, ds => ds.length = k ∧ beNat ds = n

/-- A length rule reads one way only: the number and the bytes that hold it are determined by any
string that starts with them. -/
theorem Len.Holds.unique {l : Len} {n m : Nat} {ds es r s : Bytes} (h : l.Holds n ds)
    (h' : l.Holds m es) (heq : ds ++ r = es ++ s) : n = m ∧ ds = es ∧ r = s := by
  cases l with
  | fix k =>
    obtain ⟨rfl, rfl⟩ := h
    obtain ⟨rfl, rfl⟩ := h'
    exact ⟨rfl, rfl, heq⟩
  | wide k =>
    obtain ⟨hk, rfl⟩ := h
    obtain ⟨hk', rfl⟩ := h'
    obtain ⟨rfl, rfl⟩ := List.append_inj heq (hk.trans hk'.symm)
    exact ⟨rfl, rfl, rfl⟩

/-- Two's complement reading of a `k`-byte number. -/
def signed (k n : Nat) : Int := if 2 * n < 256 ^ k then n else n - 256 ^ k

/-! ## §4 — the encoding relation. -/

mutual

/-- **`Encodes v bs`** — the byte string `bs` is an encoding of the value `v`: any width the format
allows for numbers, lengths and counts, at every level of nesting. -/
inductive Encodes : Value → Bytes → Prop
  | nil {b} (h : lead b = .nil) : Encodes .nil [b]
  | bool {b x} (h : lead b = .bool x) : Encodes (.bool x) [b]
  | uint {b l n ds} (h : lead b = .uint l) (hl : l.Holds n ds) : Encodes (.uint n) (b :: ds)
  | negfix {b z} (h : lead b = .negfix z) : Encodes (.int z) [b]
  | int {b k ds} (h : lead b = .int k) (hl : ds.length = k) :
      Encodes (.int (signed k (beNat ds))) (b :: ds)
  | float {b ds} (h : lead b = .float) (hl : ds.length = 4) : Encodes (.float (beNat ds)) (b :: ds)
  | double {b ds} (h : lead b = .double) (hl : ds.length = 8) :
      Encodes (.double (beNat ds)) (b :: ds)
  | str {b l s ds} (h : lead b = .str l) (hl : l.Holds s.length ds) :
      Encodes (.str s) (b :: (ds ++ s))
  | bin {b l s ds} (h : lead b = .bin l) (hl : l.Holds s.length ds) :
      Encodes (.bin s) (b :: (ds ++ s))
  | ext {b l ty s ds} (h : lead b = .ext l) (hl : l.Holds s.length ds) :
      Encodes (.ext ty s) (b :: (ds ++ ty :: s))
  | array {b l xs ds bs} (h : lead b = .array l) (hl : l.Holds xs.length ds)
      (hxs : EncodesAll xs bs) : Encodes (.array xs) (b :: (ds ++ bs))
  | map {b l kvs ds bs} (h : lead b = .map l) (hl : l.Holds kvs.length ds)
      (hkvs : EncodesAll (flat kvs) bs) : Encodes (.map kvs) (b :: (ds ++ bs))

/-- The encodings of a sequence of values are the concatenations of encodings of its members. -/
inductive EncodesAll : List Value → Bytes → Prop
  | nil : EncodesAll [] []
  | cons {v vs b bs} (h : Encodes v b) (hs : EncodesAll vs bs) : EncodesAll (v :: vs) (b ++ bs)

end

/-- No value is encoded by nothing. -/
theorem Encodes.ne_nil {v : Value} {bs : Bytes} (h : Encodes v bs) : bs ≠ [] := by
  cases h <;> exact List.cons_ne_nil _ _

/-- Every encoding has a lead byte.  This is what bounds the fuel of a decoder by the length of its
input. -/
theorem Encodes.length_pos {v : Value} {bs : Bytes} (h : Encodes v bs) : 0 < bs.length :=
  List.length_pos_iff.mpr h.ne_nil

/-- The first byte of an encoding announces the type of the value. -/
theorem Encodes.lead_ty {v : Value} {b : UInt8} {bs : Bytes} (h : Encodes v (b :: bs)) :
    (lead b).ty = some v.ty := by
  cases h <;> simp_all [Lead.ty, Value.ty]

/-- Sequences of encodings are put together by appending. -/
theorem EncodesAll.append {vs ws : List Value} {bs cs : Bytes} (h : EncodesAll vs bs)
    (h' : EncodesAll ws cs) : EncodesAll (vs ++ ws) (bs ++ cs) := by
  induction vs generalizing bs with
  | nil => cases h; exact h'
  | cons v vs ih =>
    cases h with
    | cons hv hvs =>
      rw [List.cons_append, List.append_assoc]
      exact .cons hv (ih hvs)

/-- The elements of an array on the wire. -/
theorem Encodes.array_cases {xs : List Value} {bs : Bytes} (h : Encodes (.array xs) bs) :
    ∃ b l ds body, bs = b :: ds ++ body ∧ lead b = .array l ∧ l.Holds xs.length ds ∧
      EncodesAll xs body := by
  cases h with
  | array hlead hl hxs => exact ⟨_, _, _, _, by simp, hlead, hl, hxs⟩

/-- The pairs of a map on the wire. -/
theorem Encodes.map_cases {kvs : List (Value × Value)} {bs : Bytes} (h : Encodes (.map kvs) bs) :
    ∃ b l ds body, bs = b :: ds ++ body ∧ lead b = .map l ∧ l.Holds kvs.length ds ∧
      EncodesAll (flat kvs) body := by
  cases h with
  | map hlead hl hkvs => exact ⟨_, _, _, _, by simp, hlead, hl, hkvs⟩

/-- The first value of a sequence has the first bytes. -/
theorem EncodesAll.cons_cases {v : Value} {vs : List Value} {bs : Bytes}
    (h : EncodesAll (v :: vs) bs) : ∃ b c, bs = b ++ c ∧ Encodes v b ∧ EncodesAll vs c := by
  cases h with
  | cons hv hvs => exact ⟨_, _, rfl, hv, hvs⟩

/-- One value is a sequence of one. -/
theorem EncodesAll.singleton {v : Value} {bs : Bytes} (h : Encodes v bs) : EncodesAll [v] bs := by
  simpa using EncodesAll.cons h .nil

end TarantoolC.MsgPack
