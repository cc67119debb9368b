/-
# TarantoolC.Cursor — C parsers over a byte string.

A parser walks a pointer through a string and calls msgpuck at it.  It can end in three ways:
normally, with an error return, or by reading where nothing is — outside the string, or a value of
another type than the reader expects.  `Outcome` keeps the three apart.  A pointer is an offset into
the string; the string is everything the parser was given, so a read behind it is `undef` even where
the caller's memory goes on.

Maps on the wire are described by their pairs (`WirePair`), each with the bytes it has there, since
a format with several widths has several strings for one map.

The readers come in two forms.  At a position where an encoding stands, with anything before and
behind it, each of them has a lemma that says what it gives (`typeAt_front` and so on): these drive
the proofs about messages that are well formed.  The other way round, what a reader that ends
normally says about the value it stands at (`expectType_inv`, `decodeUintAt_inv`) drives the proofs
about any bytes whatever.

`expectType` is the type test that guards nearly every read in the client.  Where a function reads
without it, the model does as well, and a value of another type is `undef`: the decoders of msgpuck
do not check what they are given.
-/
import TarantoolC.Msgpuck

namespace TarantoolC

open MsgPack Msgpuck

/-! ## §1 — outcomes.

A computation that may fail or be undefined, with its bind; and the lemmas that take a bind apart. -/

/-- How a C parser ends: undefined behaviour, an error return, a result. -/
inductive Outcome (α : Type) where
  | undef
  | fail
  | ok (a : α)
  deriving Repr, DecidableEq

namespace Outcome

variable {α β : Type}

instance : Monad Outcome where
  pure := .ok
  bind x f := match x with
    | .undef => .undef
    | .fail => .fail
    | .ok a => f a

/-- The three outcomes, bound: a result is passed on, ... -/
@[simp] theorem ok_bind (a : α) (f : α → Outcome β) : (Outcome.ok a >>= f) = f a := rfl

/-- ... an error return ends the parser, ... -/
@[simp] theorem fail_bind (f : α → Outcome β) : ((Outcome.fail : Outcome α) >>= f) = .fail := rfl

/-- ... and nothing comes after undefined behaviour. -/
@[simp] theorem undef_bind (f : α → Outcome β) : ((Outcome.undef : Outcome α) >>= f) = .undef := rfl

/-- A result. -/
@[simp] theorem pure_eq (a : α) : (pure a : Outcome α) = .ok a := rfl

/-- A parser that ends normally went through all its parts. -/
theorem bind_eq_ok {x : Outcome α} {f : α → Outcome β} {b : β} :
    (x >>= f) = .ok b ↔ ∃ a, x = .ok a ∧ f a = .ok b := by
  cases x with
  | undef => simp
  | fail => simp
  | ok a => simp

/-- A reader outside its contract is undefined. -/
def ofReader : Option α → Outcome α
  | none => .undef
  | some a => .ok a

end Outcome

/-! ## §2 — reading at a pointer.

One definition for each reader of msgpuck the client uses, at an offset in a string. -/

section Readers

variable [Msgpuck]

/-- `mp_typeof(*p)`. -/
def typeAt (buf : Bytes) (p : Nat) : Outcome Ty :=
  .ofReader ((buf[p]?).map mpTypeof)

/-- `if (mp_typeof(*p) != t) return -1;`. -/
def expectType (buf : Bytes) (p : Nat) (t : Ty) : Outcome Unit := do
  let t' ← typeAt buf p
  if t' ≠ t then .fail else .ok ()

/-- `mp_decode_uint(&p)`: the number and the pointer behind it. -/
def decodeUintAt (buf : Bytes) (p : Nat) : Outcome (Nat × Nat) :=
  .ofReader ((mpDecodeUint (buf.drop p)).map fun (n, k) => (n, p + k))

/-- `mp_decode_map(&p)`. -/
def decodeMapAt (buf : Bytes) (p : Nat) : Outcome (Nat × Nat) :=
  .ofReader ((mpDecodeMap (buf.drop p)).map fun (n, k) => (n, p + k))

/-- `mp_decode_array(&p)`. -/
def decodeArrayAt (buf : Bytes) (p : Nat) : Outcome (Nat × Nat) :=
  .ofReader ((mpDecodeArray (buf.drop p)).map fun (n, k) => (n, p + k))

/-- `mp_decode_str(&p, &len)`: the pointers to the first byte of the string and behind its last. -/
def decodeStrAt (buf : Bytes) (p : Nat) : Outcome (Nat × Nat) :=
  .ofReader ((mpDecodeStr (buf.drop p)).map fun (n, k) => (p + k, p + k + n))

/-- `mp_next(&p)`. -/
def nextAt (buf : Bytes) (p : Nat) : Outcome Nat :=
  .ofReader ((mpNext (buf.drop p)).map fun k => p + k)

/-! A pointer at an encoding, with anything before and behind it. -/

variable {v : Value} {bs : Bytes} (pre rest : Bytes)

/-- The type of what stands there, ... -/
theorem typeAt_front (h : Encodes v bs) : typeAt (pre ++ (bs ++ rest)) pre.length = .ok v.ty := by
  cases bs with
  | nil => exact absurd rfl h.ne_nil
  | cons b bs =>
    have hget : (pre ++ (b :: bs ++ rest))[pre.length]? = some b := by simp
    rw [typeAt, hget, Option.map_some, mpTypeof_front h]
    rfl

/-- ... which the test lets through, ... -/
theorem expectType_front (h : Encodes v bs) :
    expectType (pre ++ (bs ++ rest)) pre.length v.ty = .ok () := by
  rw [expectType, typeAt_front pre rest h]
  simp

/-- ... a number, in whatever width, ... -/
theorem decodeUintAt_front {n : Nat} (h : Encodes (.uint n) bs) :
    decodeUintAt (pre ++ (bs ++ rest)) pre.length = .ok (n, (pre ++ bs).length) := by
  rw [decodeUintAt, List.drop_left, mpDecodeUint_front h rest, List.length_append]
  rfl

/-- ... anything, passed over, ... -/
theorem nextAt_front (h : Encodes v bs) :
    nextAt (pre ++ (bs ++ rest)) pre.length = .ok (pre ++ bs).length := by
  rw [nextAt, List.drop_left, mpNext_front h rest, List.length_append]
  rfl

/-- ... and a string: the pointers to its first byte and behind its last. -/
theorem decodeStrAt_front {s : Bytes} (h : Encodes (.str s) bs) :
    decodeStrAt (pre ++ (bs ++ rest)) pre.length =
      .ok ((pre ++ bs).length - s.length, (pre ++ bs).length) := by
  cases h with
  | @str b l _ ds hb hl =>
    have hd : mpDecodeStr (b :: (ds ++ s) ++ rest) = some (s.length, 1 + ds.length) :=
      (mpDecodeStr_iff _ _ _).mpr ⟨b, l, ds, s ++ rest, by simp, hb, hl, rfl⟩
    rw [decodeStrAt, List.drop_left, hd]
    simp only [Option.map_some, Outcome.ofReader, List.length_append, List.length_cons,
      Outcome.ok.injEq, Prod.mk.injEq]
    omega

/-! A length of five bytes at the front of a string. -/

/-- It is a number, ... -/
theorem expectType_five {n : Nat} (h : n < 2 ^ 32) :
    expectType (0xce :: be 4 n ++ rest) 0 .uint = .ok () :=
  expectType_front [] rest (encodes_uint_five h)

/-- ... and is read as the length. -/
theorem decodeUintAt_five {n : Nat} (h : n < 2 ^ 32) :
    decodeUintAt (0xce :: be 4 n ++ rest) 0 = .ok (n, 5) := by
  have hdec := decodeUintAt_front [] rest (encodes_uint_five h)
  have hfive : ([] ++ 0xce :: be 4 n).length = 5 := by simp
  rwa [hfive] at hdec

/-! What a reader that ends normally says about the value it stands at. -/

/-- A test that lets through has seen the type. -/
theorem expectType_inv (h : Encodes v bs) {t : Ty}
    (hok : expectType (pre ++ (bs ++ rest)) pre.length t = .ok ()) : v.ty = t := by
  rw [expectType, typeAt_front pre rest h] at hok
  by_contra hne
  simp [hne] at hok

/-- A number that was read stands there. -/
theorem decodeUintAt_inv (h : Encodes v bs) {n q : Nat}
    (hok : decodeUintAt (pre ++ (bs ++ rest)) pre.length = .ok (n, q)) :
    v = .uint n ∧ q = (pre ++ bs).length := by
  rw [decodeUintAt, List.drop_left] at hok
  cases hdec : mpDecodeUint (bs ++ rest) with
  | none => simp [hdec, Outcome.ofReader] at hok
  | some p =>
    obtain ⟨m, k⟩ := p
    obtain ⟨b, l, ds, rest', hmem, hlead, hl, rfl⟩ := (mpDecodeUint_iff _ _ _).mp hdec
    simp only [hdec, Option.map_some, Outcome.ofReader, Outcome.ok.injEq, Prod.mk.injEq] at hok
    obtain ⟨rfl, rfl⟩ := hok
    obtain ⟨rfl, rfl, -⟩ := h.unique (.uint hlead hl) (by rw [hmem]; rfl)
    refine ⟨rfl, ?_⟩
    simp only [List.length_append, List.length_cons]
    omega

end Readers

/-! ## §3 — maps on the wire.

The pairs of a map with their bytes.  The loops of the client go over these. -/

/-- A pair of a map with a number as its key, with the bytes that encode it. -/
structure WirePair where
  key : Nat
  keyBytes : Bytes
  val : Value
  valBytes : Bytes
  key_encodes : Encodes (.uint key) keyBytes
  val_encodes : Encodes val valBytes

def WirePair.bytes (w : WirePair) : Bytes := w.keyBytes ++ w.valBytes

def wirePairs (pairs : List WirePair) : Bytes := (pairs.map WirePair.bytes).flatten

/-- Pairs one behind the other. -/
theorem wirePairs_append (xs ys : List WirePair) :
    wirePairs (xs ++ ys) = wirePairs xs ++ wirePairs ys := by
  simp [wirePairs]

/-- The first pair has the first bytes. -/
theorem wirePairs_cons (w : WirePair) (ys : List WirePair) :
    wirePairs (w :: ys) = w.bytes ++ wirePairs ys := rfl

/-! A pair in memory: the pointer is at its key, then at its value. -/

namespace WirePair

variable (w : WirePair) (pre rest : Bytes)

/-- The pointer at the key, ... -/
theorem mem_key : pre ++ (w.bytes ++ rest) = pre ++ (w.keyBytes ++ (w.valBytes ++ rest)) := by
  rw [bytes, List.append_assoc]

/-- ... at the value, ... -/
theorem mem_val : pre ++ (w.bytes ++ rest) = (pre ++ w.keyBytes) ++ (w.valBytes ++ rest) := by
  rw [mem_key, List.append_assoc]

/-- ... and behind the pair. -/
theorem mem_end : pre ++ w.bytes = (pre ++ w.keyBytes) ++ w.valBytes := by
  rw [bytes, List.append_assoc]

variable [Msgpuck]

/-- The key is a number. -/
theorem expectType_key : expectType (pre ++ (w.bytes ++ rest)) pre.length .uint = .ok () := by
  rw [mem_key]
  exact expectType_front pre (w.valBytes ++ rest) w.key_encodes

/-- It is read as what it is. -/
theorem decodeUintAt_key : decodeUintAt (pre ++ (w.bytes ++ rest)) pre.length =
    .ok (w.key, (pre ++ w.keyBytes).length) := by
  rw [mem_key]
  exact decodeUintAt_front pre (w.valBytes ++ rest) w.key_encodes

/-- The value is of its type. -/
theorem expectType_val {t : Ty} (h : w.val.ty = t) :
    expectType (pre ++ (w.bytes ++ rest)) (pre ++ w.keyBytes).length t = .ok () := by
  rw [mem_val, ← h]
  exact expectType_front (pre ++ w.keyBytes) rest w.val_encodes

/-- A number as the value, ... -/
theorem decodeUintAt_val {n : Nat} (h : w.val = .uint n) :
    decodeUintAt (pre ++ (w.bytes ++ rest)) (pre ++ w.keyBytes).length =
      .ok (n, (pre ++ w.bytes).length) := by
  have henc := w.val_encodes
  rw [h] at henc
  rw [mem_val, mem_end]
  exact decodeUintAt_front (pre ++ w.keyBytes) rest henc

/-- ... a string, ... -/
theorem decodeStrAt_val {s : Bytes} (h : w.val = .str s) :
    decodeStrAt (pre ++ (w.bytes ++ rest)) (pre ++ w.keyBytes).length =
      .ok ((pre ++ w.bytes).length - s.length, (pre ++ w.bytes).length) := by
  have henc := w.val_encodes
  rw [h] at henc
  rw [mem_val, mem_end]
  exact decodeStrAt_front (pre ++ w.keyBytes) rest henc

/-- ... or anything, passed over. -/
theorem nextAt_val : nextAt (pre ++ (w.bytes ++ rest)) (pre ++ w.keyBytes).length =
    .ok (pre ++ w.bytes).length := by
  rw [mem_val, mem_end]
  exact nextAt_front (pre ++ w.keyBytes) rest w.val_encodes

omit [Msgpuck] in
/-- Where the value starts, counted back from its end. -/
theorem val_start : (pre ++ w.bytes).length - w.valBytes.length = (pre ++ w.keyBytes).length := by
  rw [mem_end, List.length_append]
  omega

end WirePair

/-- A map on the wire: a header of any width, and its pairs. -/
structure WireMap where
  head : Bytes
  pairs : List WirePair
  head_announces : ∃ b l ds, head = b :: ds ∧ lead b = .map l ∧ l.Holds pairs.length ds

def WireMap.bytes (m : WireMap) : Bytes := m.head ++ wirePairs m.pairs

def WireMap.value (m : WireMap) : Value := .map (m.pairs.map fun w => (.uint w.key, w.val))

/-- A pair as the client itself would encode it. -/
def WirePair.packed (key : Nat) (val : Value) (hkey : key < 2 ^ 64) (hval : val.Fits) :
    WirePair where
  key := key
  keyBytes := encode (.uint key)
  val := val
  valBytes := encode val
  key_encodes := encodes_uint hkey
  val_encodes := encodes_encodeWith packed_sound val hval

/-- A map with a header as the client itself would encode it. -/
def WireMap.packed (pairs : List WirePair) (h : pairs.length < 2 ^ 32) : WireMap where
  head := mapForm.min pairs.length
  pairs := pairs
  head_announces := Form.min_spec packed_sound.map (packed_sound.map_covers _ h)

/-- The bytes of the pairs are encodings of their keys and values. -/
theorem wirePairs_encodes (pairs : List WirePair) :
    EncodesAll (flat (pairs.map fun w => (.uint w.key, w.val))) (wirePairs pairs) := by
  induction pairs with
  | nil => exact .nil
  | cons w pairs ih =>
    rw [wirePairs_cons, WirePair.bytes, List.append_assoc]
    exact .cons w.key_encodes (.cons w.val_encodes ih)

/-- A map on the wire is an encoding of its value. -/
theorem WireMap.encodes (m : WireMap) : Encodes m.value m.bytes := by
  obtain ⟨b, l, ds, hhead, hlead, hl⟩ := m.head_announces
  rw [WireMap.bytes, hhead, List.cons_append]
  refine .map hlead ?_ (wirePairs_encodes m.pairs)
  rw [List.length_map]
  exact hl

/-- The header of a map says how many pairs there are. -/
theorem WireMap.decodeMapAt_front [Msgpuck] (m : WireMap) (pre rest : Bytes) :
    decodeMapAt (pre ++ (m.head ++ rest)) pre.length =
      .ok (m.pairs.length, (pre ++ m.head).length) := by
  obtain ⟨b, l, ds, hhead, hlead, hl⟩ := m.head_announces
  have hd : mpDecodeMap (m.head ++ rest) = some (m.pairs.length, m.head.length) := by
    rw [mpDecodeMap_iff, hhead]
    exact ⟨b, l, ds, rest, rfl, hlead, hl, by simp; omega⟩
  rw [decodeMapAt, List.drop_left, hd, List.length_append]
  rfl

/-- The last pair with a key, and the pairs before it. -/
def lastPair (k : Nat) : List WirePair → Option (List WirePair × WirePair)
  | [] => none
  | w :: l =>
    match lastPair k l with
    | some (pre, x) => some (w :: pre, x)
    | none => if w.key = k then some ([], w) else none

/-- One more pair at the end. -/
theorem lastPair_snoc (k : Nat) (l : List WirePair) (w : WirePair) :
    lastPair k (l ++ [w]) = if w.key = k then some (l, w) else lastPair k l := by
  induction l with
  | nil => rfl
  | cons x l ih =>
    rw [List.cons_append, lastPair, ih]
    split
    · next pre y h =>
      split at h
      · next hk =>
        obtain ⟨rfl, rfl⟩ := Prod.mk.inj (Option.some.inj h)
        rw [if_pos hk]
      · next hk => rw [if_neg hk, lastPair, h]
    · next h =>
      split at h
      · exact absurd h (by simp)
      · next hk => rw [if_neg hk, lastPair, h]

/-- Without a pair of the key there is no last one. -/
theorem lastPair_eq_none_iff {k : Nat} {l : List WirePair} :
    lastPair k l = none ↔ ∀ w ∈ l, w.key ≠ k := by
  induction l with
  | nil => simp [lastPair]
  | cons w l ih =>
    rw [lastPair]
    cases h : lastPair k l with
    | some p =>
      have hne : ¬ ∀ w ∈ l, w.key ≠ k := by
        rw [← ih, h]
        simp
      refine ⟨fun h => absurd h (by simp), ?_⟩
      intro hall
      exact absurd (fun x hx => hall x (by simp [hx])) hne
    | none =>
      rw [h] at ih
      have hl := ih.mp rfl
      by_cases hk : w.key = k
      · simp [hk]
      · simpa [hk] using hl

/-- What `lastPair` finds: the pair has the key, and none behind it has. -/
theorem lastPair_eq_some {k : Nat} {l pre : List WirePair} {w : WirePair}
    (h : lastPair k l = some (pre, w)) :
    ∃ post, l = pre ++ w :: post ∧ w.key = k ∧ ∀ x ∈ post, x.key ≠ k := by
  induction l generalizing pre with
  | nil => exact absurd h (by simp [lastPair])
  | cons x l ih =>
    rw [lastPair] at h
    split at h
    · next pre' y hl =>
      obtain ⟨rfl, rfl⟩ := Prod.mk.inj (Option.some.inj h)
      obtain ⟨post, rfl, hk, hpost⟩ := ih hl
      exact ⟨post, rfl, hk, hpost⟩
    · next hl =>
      split at h
      · next hk =>
        obtain ⟨rfl, rfl⟩ := Prod.mk.inj (Option.some.inj h)
        exact ⟨l, rfl, hk, lastPair_eq_none_iff.mp hl⟩
      · exact absurd h (by simp)

end TarantoolC
