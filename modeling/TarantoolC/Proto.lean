/-
# TarantoolC.Proto — the request protocol: its constants, and what a message on the wire is.

The constants are those of `tarantool/tnt_proto.h`, as far as the client uses them.  A request on
the wire is a length prefix and two MessagePack maps, the header and the body.  `messageWire` is
the byte string, `Carries` what a server that decodes it learns; `messageWire_carries` connects the
two.  Every encoder of the client is compared with `messageWire`.

* `Payload` — what stands behind a key of a body: a value that the client encodes itself, in the
  shortest form, or an object of the caller that is copied as it is;
* `Field` — a key with its payload, as a function of the client writes it;
* `Carries` — what a server reads: a length prefix of either width, announcing exactly the bytes
  that follow; a header that is a map with the type and the sync; a body that is a map from keys to
  values.

`Carries` does not say in which order the pairs of a body stand or how they are encoded, only what
is read.  So two messages that differ in bytes may carry the same request, which is how the encoders
of the two request APIs are compared; and a message carries one request at most (`Carries.unique`),
because the format is unambiguous.
-/
import TarantoolC.MsgPack.Encode
import TarantoolC.MsgPack.Decode

namespace TarantoolC.Proto

open MsgPack

/-! ## §1 — constants.

Numbers of request types and of keys, with the names that the header file has for them. -/

/-- `enum tnt_header_key_t`. -/
inductive HeaderKey where
  | code | sync | schemaId
  deriving Repr, DecidableEq

def HeaderKey.num : HeaderKey → Nat
  | .code => 0x00
  | .sync => 0x01
  | .schemaId => 0x05

/-- `enum tnt_body_key_t`. -/
inductive BodyKey where
  | space | index | limit | offset | iterator | indexBase
  | key | tuple | function | username | expression | ops
  | sqlText | sqlBind
  deriving Repr, DecidableEq

def BodyKey.num : BodyKey → Nat
  | .space => 0x10
  | .index => 0x11
  | .limit => 0x12
  | .offset => 0x13
  | .iterator => 0x14
  | .indexBase => 0x15
  | .key => 0x20
  | .tuple => 0x21
  | .function => 0x22
  | .username => 0x23
  | .expression => 0x27
  | .ops => 0x28
  | .sqlText => 0x40
  | .sqlBind => 0x41

/-- `enum tnt_response_key_t`. -/
inductive ResponseKey where
  | data | error | metadata | sqlInfo
  deriving Repr, DecidableEq

def ResponseKey.num : ResponseKey → Nat
  | .data => 0x30
  | .error => 0x31
  | .metadata => 0x32
  | .sqlInfo => 0x42

/-- `TNT_CHUNK` of `enum tnt_response_type_t`. -/
def tntChunk : Nat := 0x80

/-- `enum tnt_request_t`. -/
inductive RequestType where
  | select | insert | replace | update | delete | call16 | auth | eval | upsert | call | execute
  | ping
  deriving Repr, DecidableEq

def RequestType.num : RequestType → Nat
  | .select => 1
  | .insert => 2
  | .replace => 3
  | .update => 4
  | .delete => 5
  | .call16 => 6
  | .auth => 7
  | .eval => 8
  | .upsert => 9
  | .call => 10
  | .execute => 11
  | .ping => 64

/-- The constants are numbers that the format has. -/
theorem HeaderKey.num_lt (k : HeaderKey) : k.num < 2 ^ 64 := by cases k <;> decide

theorem BodyKey.num_lt (k : BodyKey) : k.num < 2 ^ 64 := by cases k <;> decide

theorem ResponseKey.num_lt (k : ResponseKey) : k.num < 2 ^ 64 := by cases k <;> decide

theorem RequestType.num_lt (t : RequestType) : t.num < 2 ^ 64 := by cases t <;> decide

/-! ## §2 — messages.

The wire of a message, and what a server makes of it. -/

/-- What stands behind a key of a request body: a value the client encodes, or an object that the
caller has encoded. -/
inductive Payload where
  | value (v : Value)
  | object (bytes : Bytes)

def Payload.wire : Payload → Bytes
  | .value v => encode v
  | .object bytes => bytes

/-- The value a payload stands for. -/
inductive Payload.Means : Payload → Value → Prop
  | value {v} (h : v.Fits) : Means (.value v) v
  | object {v bytes} (h : Encodes v bytes) : Means (.object bytes) v

/-- A payload is written as an encoding of the value it stands for. -/
theorem Payload.Means.encodes {p : Payload} {v : Value} (h : p.Means v) : Encodes v p.wire := by
  cases h with
  | value hfits => exact encodes_encodeWith packed_sound _ hfits
  | object henc => exact henc

/-- A pair of a request body. -/
structure Field where
  key : BodyKey
  payload : Payload

def Field.wire (f : Field) : Bytes := encode (.uint f.key.num) ++ f.payload.wire

/-- The pair a server reads. -/
def Field.Reads (f : Field) (p : BodyKey × Value) : Prop := p.1 = f.key ∧ f.payload.Means p.2

/-- The body of a request with the given pairs. -/
def bodyWire (fields : List Field) : Bytes :=
  mapForm.min fields.length ++ (fields.map Field.wire).flatten

/-- The header of a request. -/
def header (type : RequestType) (sync : Nat) : Value :=
  .map [(.uint HeaderKey.code.num, .uint type.num), (.uint HeaderKey.sync.num, .uint sync)]

/-- Header and body. -/
def packageWire (type : RequestType) (sync : Nat) (fields : List Field) : Bytes :=
  encode (header type sync) ++ bodyWire fields

/-- The prefix that announces `n` bytes: four bytes wide, or eight where four do not suffice. -/
def lengthPrefix (n : Nat) : Bytes := if n < 2 ^ 32 then 0xce :: be 4 n else 0xcf :: be 8 n

/-- A whole request. -/
def messageWire (type : RequestType) (sync : Nat) (fields : List Field) : Bytes :=
  lengthPrefix (packageWire type sync fields).length ++ packageWire type sync fields

/-- **`Carries wire type sync pairs`** — the bytes are a length prefix and the announced number of
bytes, which are exactly two maps: the header with the request type and the sync, and a body with
these pairs in this order. -/
def Carries (wire : Bytes) (type : RequestType) (sync : Nat) (pairs : List (BodyKey × Value)) :
    Prop :=
  ∃ package body, wire = lengthPrefix package.length ++ package ∧
    decodeFront package = some (header type sync, body) ∧
    decodeFront body = some (.map (pairs.map fun p => (.uint p.1.num, p.2)), [])

/-- A header can be written. -/
theorem header_fits (type : RequestType) {sync : Nat} (h : sync < 2 ^ 64) :
    (header type sync).Fits := by
  simp only [header, Value.Fits, FitsPairs, List.length_cons, List.length_nil]
  exact ⟨by decide, HeaderKey.num_lt _, type.num_lt, HeaderKey.num_lt _, h, trivial⟩

/-- The pairs of a body, encoded one after the other. -/
theorem fields_encodes {fields : List Field} {pairs : List (BodyKey × Value)}
    (h : List.Forall₂ Field.Reads fields pairs) :
    EncodesAll (flat (pairs.map fun p => (.uint p.1.num, p.2))) (fields.map Field.wire).flatten := by
  induction h with
  | nil => exact .nil
  | @cons f p fields pairs hf _ ih =>
    obtain ⟨hkey, hmeans⟩ := hf
    have hk : Encodes (.uint p.1.num) (encode (.uint f.key.num)) := by
      rw [hkey]
      exact encodes_uint (BodyKey.num_lt _)
    rw [List.map_cons, List.map_cons, List.flatten_cons, Field.wire, List.append_assoc]
    exact .cons hk (.cons hmeans.encodes ih)

/-- The body of a package decodes to its pairs. -/
theorem bodyWire_encodes {fields : List Field} {pairs : List (BodyKey × Value)}
    (h : List.Forall₂ Field.Reads fields pairs) (hlen : fields.length < 2 ^ 32) :
    Encodes (.map (pairs.map fun p => (.uint p.1.num, p.2))) (bodyWire fields) := by
  have heq : (pairs.map fun p => (Value.uint p.1.num, p.2)).length = fields.length := by
    rw [List.length_map, h.length_eq]
  have henc := packed_sound.encodes_map (by rw [heq]; exact hlen) (fields_encodes h)
  rwa [heq] at henc

/-- **`Decodes package type sync pairs`** — the bytes are exactly two maps: the header with the
request type and the sync, and a body with these pairs in this order. -/
def Decodes (package : Bytes) (type : RequestType) (sync : Nat) (pairs : List (BodyKey × Value)) :
    Prop :=
  ∃ body, decodeFront package = some (header type sync, body) ∧
    decodeFront body = some (.map (pairs.map fun p => (.uint p.1.num, p.2)), [])

/-- A header in any of its encodings, and a body. -/
theorem decodes_of_encodes {type : RequestType} {sync : Nat} {pairs : List (BodyKey × Value)}
    {head body : Bytes} (hhead : Encodes (header type sync) head)
    (hbody : Encodes (.map (pairs.map fun p => (.uint p.1.num, p.2))) body) :
    Decodes (head ++ body) type sync pairs := by
  refine ⟨body, decodeFront_append hhead body, ?_⟩
  have hdec := decodeFront_append hbody []
  rwa [List.append_nil] at hdec

/-- Header and body are read back. -/
theorem packageWire_decodes (type : RequestType) {sync : Nat} (hsync : sync < 2 ^ 64)
    {fields : List Field} {pairs : List (BodyKey × Value)}
    (h : List.Forall₂ Field.Reads fields pairs) (hlen : fields.length < 2 ^ 32) :
    Decodes (packageWire type sync fields) type sync pairs :=
  decodes_of_encodes (encodes_encodeWith packed_sound _ (header_fits type hsync))
    (bodyWire_encodes h hlen)

/-- **A message carries its pairs.**  The length prefix is four bytes wide where that suffices, as
the client writes it. -/
theorem messageWire_carries (type : RequestType) {sync : Nat} (hsync : sync < 2 ^ 64)
    {fields : List Field} {pairs : List (BodyKey × Value)}
    (h : List.Forall₂ Field.Reads fields pairs) (hlen : fields.length < 2 ^ 32) :
    Carries (messageWire type sync fields) type sync pairs := by
  obtain ⟨body, hhead, hbody⟩ := packageWire_decodes type hsync h hlen
  exact ⟨packageWire type sync fields, body, rfl, hhead, hbody⟩

/-- No two keys of a body have the same number. -/
theorem BodyKey.num_inj {j k : BodyKey} (h : j.num = k.num) : j = k := by
  cases j <;> cases k <;> first | rfl | exact absurd h (by decide)

/-- The prefix tells where the package starts. -/
theorem lengthPrefix_inj {p q : Bytes}
    (h : lengthPrefix p.length ++ p = lengthPrefix q.length ++ q) : p = q := by
  unfold lengthPrefix at h
  split at h
  · split at h
    · exact (List.append_inj (List.cons.inj h).2 (by simp)).2
    · exact absurd (List.cons.inj h).1 (by decide)
  · split at h
    · exact absurd (List.cons.inj h).1 (by decide)
    · exact (List.append_inj (List.cons.inj h).2 (by simp)).2

/-- **A message carries one body.**  All its parts are read back by the decoder of the format. -/
theorem Carries.unique {wire : Bytes} {type : RequestType} {sync : Nat}
    {pairs pairs' : List (BodyKey × Value)} (h : Carries wire type sync pairs)
    (h' : Carries wire type sync pairs') : pairs = pairs' := by
  obtain ⟨package, body, hwire, hhead, hbody⟩ := h
  obtain ⟨package', body', hwire', hhead', hbody'⟩ := h'
  obtain rfl := lengthPrefix_inj (hwire.symm.trans hwire')
  rw [hhead] at hhead'
  obtain rfl := (Prod.mk.inj (Option.some.inj hhead')).2
  rw [hbody] at hbody'
  have hmap := Value.map.inj (Prod.mk.inj (Option.some.inj hbody')).1
  refine List.map_injective_iff.mpr ?_ hmap
  intro p q hpq
  obtain ⟨hkey, hval⟩ := Prod.mk.inj hpq
  exact Prod.ext (BodyKey.num_inj (Value.uint.inj hkey)) hval

end TarantoolC.Proto
