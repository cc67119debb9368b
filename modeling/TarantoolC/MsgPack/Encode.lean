/-
# TarantoolC.MsgPack.Encode — encoders that choose one encoding, and that they choose a right one.

Numbers, string lengths and container counts all follow one scheme: small values sit in the lead
byte, larger ones in the narrowest of a few big-endian widths.  `Form` is that scheme with its
tags, `Form.min` the choice, and `Form.min_spec` the single lemma that the chosen bytes are what the
lead-byte table says.  A `Style` fixes the two container forms, so that the canonical encoding
(`packed`) and the encoding with five-byte container headers (`sparse`) are one function.

An encoder has freedom that a decoder has not, and clients use it: the same number is written in
nine bytes by one function and in one by another, and headers that are filled in later are written
in their longest form.  So no single function is THE encoder.  What is shared is stated once:

* `Form.Agrees` — the tags of a form are those of the lead-byte table, a finite check for each of
  the eight forms;
* `Form.Covers` — the number can be written at all, in the lead byte or in one of the widths;
* `Form.min_spec` — from these two, that the bytes chosen announce the number.

`encodes_encodeWith` then is one recursion over values, for every style whose container forms agree
and cover (`Style.Sound`).  Its hypothesis `Value.Fits` is exactly what an encoding needs to exist:
`2 ^ 64` for numbers and `2 ^ 32` for lengths and counts.
-/
import TarantoolC.MsgPack.Format

namespace TarantoolC.MsgPack

/-! ## §1 — forms.

A form is a list of widths with tags, and `min` the narrowest that holds the number. -/

/-- One family of lead bytes: `fix` one-byte forms from `base` on, then tags with big-endian
widths, narrowest first. -/
structure Form where
  base : Nat
  fix : Nat
  wide : List (UInt8 × Nat)

/-- The shortest way the form writes `n`. -/
def Form.min (f : Form) (n : Nat) : Bytes :=
  if n < f.fix then [UInt8.ofNat (f.base + n)]
  else match f.wide.find? (fun w => n < 256 ^ w.2) with
    | some w => w.1 :: be w.2 n
    | none => []

/-- The form's tags are the ones the lead-byte table announces as `mk`. -/
def Form.Agrees (f : Form) (mk : Len → Lead) : Prop :=
  (∀ n < f.fix, lead (UInt8.ofNat (f.base + n)) = mk (.fix n)) ∧
    ∀ w ∈ f.wide, lead w.1 = mk (.wide w.2)

instance (f : Form) (mk : Len → Lead) : Decidable (f.Agrees mk) :=
  inferInstanceAs (Decidable (_ ∧ _))

/-- `n` has a way to be written in the form. -/
def Form.Covers (f : Form) (n : Nat) : Prop := n < f.fix ∨ ∃ w ∈ f.wide, n < 256 ^ w.2

/-- **What `Form.min` writes, the lead-byte table reads.**  It is the only lemma about forms that
the encoders need. -/
theorem Form.min_spec {f : Form} {mk : Len → Lead} (hf : f.Agrees mk) {n : Nat}
    (hn : f.Covers n) : ∃ b l ds, f.min n = b :: ds ∧ lead b = mk l ∧ l.Holds n ds := by
  unfold Form.min
  by_cases hfix : n < f.fix
  · rw [if_pos hfix]
    exact ⟨_, .fix n, [], rfl, hf.1 n hfix, rfl, rfl⟩
  · rw [if_neg hfix]
    obtain ⟨w, hw, hlt⟩ := hn.resolve_left hfix
    cases hfind : f.wide.find? (fun w => n < 256 ^ w.2) with
    | none =>
      have hnone := List.find?_eq_none.mp hfind w hw
      exact absurd (decide_eq_true hlt) hnone
    | some v =>
      have hlt' : n < 256 ^ v.2 := by simpa using List.find?_some hfind
      exact ⟨v.1, .wide v.2, be v.2 n, rfl, hf.2 v (List.mem_of_find?_eq_some hfind),
        be_length _ _, beNat_be hlt'⟩

/-- A form with a single width has no choice. -/
theorem Form.min_single (base : Nat) (t : UInt8) {k n : Nat} (h : n < 256 ^ k) :
    Form.min ⟨base, 0, [(t, k)]⟩ n = t :: be k n := by
  simp [Form.min, h]

def uintForm : Form := ⟨0x00, 0x80, [(0xcc, 1), (0xcd, 2), (0xce, 4), (0xcf, 8)]⟩
def strForm : Form := ⟨0xa0, 32, [(0xd9, 1), (0xda, 2), (0xdb, 4)]⟩
def binForm : Form := ⟨0, 0, [(0xc4, 1), (0xc5, 2), (0xc6, 4)]⟩
def extForm : Form := ⟨0, 0, [(0xc7, 1), (0xc8, 2), (0xc9, 4)]⟩
def arrayForm : Form := ⟨0x90, 16, [(0xdc, 2), (0xdd, 4)]⟩
def mapForm : Form := ⟨0x80, 16, [(0xde, 2), (0xdf, 4)]⟩
def array32Form : Form := ⟨0, 0, [(0xdd, 4)]⟩
def map32Form : Form := ⟨0, 0, [(0xdf, 4)]⟩

/-- The eight forms have the tags of the table.  Each is a check of its one-byte forms and of its
widths. -/
theorem uintForm_agrees : uintForm.Agrees .uint := by decide
theorem strForm_agrees : strForm.Agrees .str := by decide
theorem binForm_agrees : binForm.Agrees .bin := by decide
theorem extForm_agrees : extForm.Agrees .ext := by decide
theorem arrayForm_agrees : arrayForm.Agrees .array := by decide
theorem mapForm_agrees : mapForm.Agrees .map := by decide
theorem array32Form_agrees : array32Form.Agrees .array := by decide
theorem map32Form_agrees : map32Form.Agrees .map := by decide

/-- A number of 64 bits has a width. -/
theorem uintForm_covers {n : Nat} (h : n < 2 ^ 64) : uintForm.Covers n :=
  .inr ⟨(0xcf, 8), by decide, by simpa using h⟩

/-- A form with a four-byte width covers every 32-bit length. -/
theorem Form.covers_of_wide4 {f : Form} {t : UInt8} (ht : (t, 4) ∈ f.wide) {n : Nat}
    (h : n < 2 ^ 32) : f.Covers n :=
  .inr ⟨(t, 4), ht, by simpa using h⟩

/-- How many bytes a number takes. -/
theorem uintForm_min_length (n : Nat) : (uintForm.min n).length =
    if n < 2 ^ 7 then 1 else if n < 2 ^ 8 then 2 else if n < 2 ^ 16 then 3
      else if n < 2 ^ 32 then 5 else if n < 2 ^ 64 then 9 else 0 := by
  simp only [Form.min, uintForm, List.find?]
  split
  · next h => rw [if_pos (by omega)]; rfl
  · next h =>
    rw [if_neg (by omega)]
    by_cases h1 : n < 256
    · simp [h1]
    by_cases h2 : n < 65536
    · simp [h1, h2]
    by_cases h4 : n < 4294967296
    · simp [h1, h2, h4]
    by_cases h8 : n < 18446744073709551616
    · simp [h1, h2, h4, h8]
    · simp [h1, h2, h4, h8]

/-- A string header takes at most five bytes. -/
theorem strForm_min_length_le (n : Nat) : (strForm.min n).length ≤ 5 := by
  simp only [Form.min, strForm, List.find?]
  split
  · simp
  · by_cases h1 : n < 256
    · simp [h1]
    by_cases h2 : n < 65536
    · simp [h1, h2]
    by_cases h4 : n < 4294967296
    · simp [h1, h2, h4]
    · simp [h1, h2, h4]

/-- A negative number in the narrowest signed format. -/
def negBytes (z : Int) : Bytes :=
  if -32 ≤ z then [UInt8.ofNat (256 + z).toNat]
  else if -2 ^ 7 ≤ z then 0xd0 :: be 1 (2 ^ 8 + z).toNat
  else if -2 ^ 15 ≤ z then 0xd1 :: be 2 (2 ^ 16 + z).toNat
  else if -2 ^ 31 ≤ z then 0xd2 :: be 4 (2 ^ 32 + z).toNat
  else 0xd3 :: be 8 (2 ^ 64 + z).toNat

/-! ## §2 — encoders.

Recursion over the value, with the forms of containers as a parameter. -/

/-- How containers announce their counts. -/
structure Style where
  array : Form
  map : Form

/-- Every header as short as the format allows. -/
def packed : Style := ⟨arrayForm, mapForm⟩

/-- Every container header in its five-byte form. -/
def sparse : Style := ⟨array32Form, map32Form⟩

/-- A style whose forms are array and map headers up to `2^32 - 1`. -/
structure Style.Sound (S : Style) : Prop where
  array : S.array.Agrees .array
  map : S.map.Agrees .map
  array_covers : ∀ n < 2 ^ 32, S.array.Covers n
  map_covers : ∀ n < 2 ^ 32, S.map.Covers n

/-- The shortest headers are headers. -/
theorem packed_sound : packed.Sound :=
  ⟨arrayForm_agrees, mapForm_agrees,
    fun _ h => Form.covers_of_wide4 (t := 0xdd) (by decide) h,
    fun _ h => Form.covers_of_wide4 (t := 0xdf) (by decide) h⟩

/-- So are those of five bytes, which have no one-byte form. -/
theorem sparse_sound : sparse.Sound :=
  ⟨array32Form_agrees, map32Form_agrees,
    fun _ h => Form.covers_of_wide4 (t := 0xdd) (by decide) h,
    fun _ h => Form.covers_of_wide4 (t := 0xdf) (by decide) h⟩

mutual

/-- The encoding of a value in a container style; leaves are always minimal. -/
def encodeWith (S : Style) : Value → Bytes
  | .nil => [0xc0]
  | .bool b => [if b then 0xc3 else 0xc2]
  | .uint n => uintForm.min n
  | .int z => negBytes z
  | .float bits => 0xca :: be 4 bits
  | .double bits => 0xcb :: be 8 bits
  | .str s => strForm.min s.length ++ s
  | .bin s => binForm.min s.length ++ s
  | .ext ty s => extForm.min s.length ++ ty :: s
  | .array xs => S.array.min xs.length ++ encodeAllWith S xs
  | .map kvs => S.map.min kvs.length ++ encodePairsWith S kvs

def encodeAllWith (S : Style) : List Value → Bytes
  | [] => []
  | v :: vs => encodeWith S v ++ encodeAllWith S vs

def encodePairsWith (S : Style) : List (Value × Value) → Bytes
  | [] => []
  | (k, v) :: kvs => encodeWith S k ++ (encodeWith S v ++ encodePairsWith S kvs)

end

/-- A map is encoded as the sequence of its keys and values. -/
theorem encodePairsWith_eq (S : Style) (kvs : List (Value × Value)) :
    encodePairsWith S kvs = encodeAllWith S (flat kvs) := by
  induction kvs with
  | nil => simp [flat, encodePairsWith, encodeAllWith]
  | cons kv kvs ih => obtain ⟨k, v⟩ := kv; simp [flat, encodePairsWith, encodeAllWith, ih]

/-- The canonical encoding: every header minimal. -/
def encode (v : Value) : Bytes := encodeWith packed v

mutual

/-- The value has an encoding at all: numbers, lengths and counts fit the widest format. -/
def Value.Fits : Value → Prop
  | .nil | .bool _ => True
  | .uint n => n < 2 ^ 64
  | .int z => -2 ^ 63 ≤ z ∧ z < 0
  | .float bits => bits < 2 ^ 32
  | .double bits => bits < 2 ^ 64
  | .str s | .bin s | .ext _ s => s.length < 2 ^ 32
  | .array xs => xs.length < 2 ^ 32 ∧ FitsAll xs
  | .map kvs => kvs.length < 2 ^ 32 ∧ FitsPairs kvs

def FitsAll : List Value → Prop
  | [] => True
  | v :: vs => v.Fits ∧ FitsAll vs

def FitsPairs : List (Value × Value) → Prop
  | [] => True
  | (k, v) :: kvs => k.Fits ∧ v.Fits ∧ FitsPairs kvs

end

/-! ## §3 — the encoders are right.

From the lemma about forms, by recursion over the value once more. -/

/-- One lemma for each leaf: the shortest way to write it is an encoding. -/
theorem encodes_uint {n : Nat} (h : n < 2 ^ 64) : Encodes (.uint n) (uintForm.min n) := by
  obtain ⟨b, l, ds, heq, hlead, hl⟩ := Form.min_spec uintForm_agrees (uintForm_covers h)
  rw [heq]
  exact .uint hlead hl

/-- A number in five bytes, however small it is. -/
theorem encodes_uint_five {n : Nat} (h : n < 2 ^ 32) : Encodes (.uint n) (0xce :: be 4 n) :=
  .uint (l := .wide 4) (by decide) ⟨be_length _ _, beNat_be (by simpa using h)⟩

/-- A string behind the shortest length that says how long it is. -/
theorem encodes_str {s : Bytes} (h : s.length < 2 ^ 32) :
    Encodes (.str s) (strForm.min s.length ++ s) := by
  obtain ⟨b, l, ds, heq, hlead, hl⟩ :=
    Form.min_spec strForm_agrees (Form.covers_of_wide4 (t := 0xdb) (by decide) h)
  rw [heq]
  exact .str hlead hl

/-- The same for binary strings, which have no one-byte form. -/
theorem encodes_bin {s : Bytes} (h : s.length < 2 ^ 32) :
    Encodes (.bin s) (binForm.min s.length ++ s) := by
  obtain ⟨b, l, ds, heq, hlead, hl⟩ :=
    Form.min_spec binForm_agrees (Form.covers_of_wide4 (t := 0xc6) (by decide) h)
  rw [heq]
  exact .bin hlead hl

/-- The same for extensions, whose type stands between the length and the bytes. -/
theorem encodes_ext {ty : UInt8} {s : Bytes} (h : s.length < 2 ^ 32) :
    Encodes (.ext ty s) (extForm.min s.length ++ ty :: s) := by
  obtain ⟨b, l, ds, heq, hlead, hl⟩ :=
    Form.min_spec extForm_agrees (Form.covers_of_wide4 (t := 0xc9) (by decide) h)
  rw [heq]
  exact .ext hlead hl

/-- The signed formats `d0 … d3` hold `z` as `z + 256^k`. -/
theorem encodes_int_wide {z : Int} {k : Nat} {t : UInt8} (ht : lead t = .int k)
    (hlo : -(256 ^ k : Int) ≤ 2 * z) (hneg : z < 0) :
    Encodes (.int z) (t :: be k (256 ^ k + z).toNat) := by
  have hpow : (0 : Int) < 256 ^ k := by positivity
  have hcast : (((256 : Int) ^ k + z).toNat : Int) = 256 ^ k + z := Int.toNat_of_nonneg (by omega)
  have hlt : (256 ^ k + z).toNat < 256 ^ k := by
    have : (((256 : Int) ^ k + z).toNat : Int) < ((256 ^ k : Nat) : Int) := by push_cast; omega
    exact_mod_cast this
  have hz : signed k (beNat (be k (256 ^ k + z).toNat)) = z := by
    rw [beNat_be hlt]
    unfold signed
    rw [if_neg (by
      intro h
      have : (2 * ((256 : Int) ^ k + z).toNat : Int) < ((256 ^ k : Nat) : Int) := by exact_mod_cast h
      push_cast at this
      omega)]
    rw [hcast]
    ring
  have henc := @Encodes.int t k (be k (256 ^ k + z).toNat) ht (be_length _ _)
  rwa [hz] at henc

/-- The 32 lead bytes that are small negative numbers. -/
theorem lead_negfix {z : Int} (hlo : -32 ≤ z) (hneg : z < 0) :
    lead (UInt8.ofNat (256 + z).toNat) = .negfix z := by
  obtain ⟨m, hm⟩ : ∃ m : Nat, z = -((m : Int) + 1) := ⟨(-z - 1).toNat, by omega⟩
  have hm32 : m < 32 := by omega
  subst hm
  interval_cases m <;> rfl

/-- A negative number, in its lead byte or in two's complement of the narrowest width. -/
theorem encodes_int {z : Int} (hlo : -2 ^ 63 ≤ z) (hneg : z < 0) :
    Encodes (.int z) (negBytes z) := by
  unfold negBytes
  split
  · next h => exact .negfix (lead_negfix h hneg)
  split
  · exact encodes_int_wide (k := 1) (by decide) (by norm_num; omega) hneg
  split
  · exact encodes_int_wide (k := 2) (by decide) (by norm_num; omega) hneg
  split
  · exact encodes_int_wide (k := 4) (by decide) (by norm_num; omega) hneg
  · exact encodes_int_wide (k := 8) (by decide) (by norm_num; omega) hneg

theorem encodes_float {bits : Nat} (h : bits < 2 ^ 32) :
    Encodes (.float bits) (0xca :: be 4 bits) := by
  have henc := @Encodes.float 0xca (be 4 bits) (by decide) (be_length _ _)
  rwa [beNat_be (by simpa using h)] at henc

theorem encodes_double {bits : Nat} (h : bits < 2 ^ 64) :
    Encodes (.double bits) (0xcb :: be 8 bits) := by
  have henc := @Encodes.double 0xcb (be 8 bits) (by decide) (be_length _ _)
  rwa [beNat_be (by simpa using h)] at henc

theorem encodes_bool (b : Bool) : Encodes (.bool b) [if b then 0xc3 else 0xc2] := by
  cases b
  · exact .bool (b := 0xc2) (by decide)
  · exact .bool (b := 0xc3) (by decide)

/-- A container header in the style, followed by encodings of as many children. -/
theorem Style.Sound.encodes_array {S : Style} (hS : S.Sound) {xs : List Value} {bs : Bytes}
    (hlen : xs.length < 2 ^ 32) (hxs : EncodesAll xs bs) :
    Encodes (.array xs) (S.array.min xs.length ++ bs) := by
  obtain ⟨b, l, ds, heq, hlead, hl⟩ := Form.min_spec hS.array (hS.array_covers _ hlen)
  rw [heq]
  exact .array hlead hl hxs

/-- A map in a sound style: a header with the number of pairs, and the children. -/
theorem Style.Sound.encodes_map {S : Style} (hS : S.Sound) {kvs : List (Value × Value)}
    {bs : Bytes} (hlen : kvs.length < 2 ^ 32) (hkvs : EncodesAll (flat kvs) bs) :
    Encodes (.map kvs) (S.map.min kvs.length ++ bs) := by
  obtain ⟨b, l, ds, heq, hlead, hl⟩ := Form.min_spec hS.map (hS.map_covers _ hlen)
  rw [heq]
  exact .map hlead hl hkvs

mutual

/-- **The encoder of a sound style produces an encoding** of every value that has one.  The
recursion is that of the encoder: values, sequences, pairs. -/
theorem encodes_encodeWith {S : Style} (hS : S.Sound) :
    ∀ v : Value, v.Fits → Encodes v (encodeWith S v)
  | .nil, _ => .nil (b := 0xc0) (by decide)
  | .bool b, _ => encodes_bool b
  | .uint _, h => encodes_uint h
  | .int _, h => encodes_int h.1 h.2
  | .float _, h => encodes_float h
  | .double _, h => encodes_double h
  | .str _, h => encodes_str h
  | .bin _, h => encodes_bin h
  | .ext _ _, h => encodes_ext h
  | .array xs, h => hS.encodes_array h.1 (encodesAll_encodeAllWith hS xs h.2)
  | .map kvs, h => hS.encodes_map h.1 (encodesAll_encodePairsWith hS kvs h.2)

/-- The same for sequences, and for the pairs of a map. -/
theorem encodesAll_encodeAllWith {S : Style} (hS : S.Sound) :
    ∀ vs : List Value, FitsAll vs → EncodesAll vs (encodeAllWith S vs)
  | [], _ => .nil
  | v :: vs, h => .cons (encodes_encodeWith hS v h.1) (encodesAll_encodeAllWith hS vs h.2)

theorem encodesAll_encodePairsWith {S : Style} (hS : S.Sound) :
    ∀ kvs : List (Value × Value), FitsPairs kvs → EncodesAll (flat kvs) (encodePairsWith S kvs)
  | [], _ => .nil
  | (k, v) :: kvs, h =>
    .cons (encodes_encodeWith hS k h.1)
      (.cons (encodes_encodeWith hS v h.2.1) (encodesAll_encodePairsWith hS kvs h.2.2))

end

end TarantoolC.MsgPack
