/-
# TarantoolC.Request.Direct — the direct encoders `tnt_select`, `tnt_insert`, …, `tnt_auth_raw`.

Each function checks its arguments, encodes a header and a body into arrays on its stack, and hands
`writev` a vector that alternates pieces of these arrays with the caller's objects.  A function is
modelled up to that call: `refused` is the return value -1 of a failed check, `writev iov` the
vector.  `none` is undefined behaviour: an array on the stack too small for what is written to it,
or a look at an object without bytes.

`Direct.exec_wire` is the result for all twelve: the vector concatenates to the message of the
protocol for the arguments.

## What is shared

The functions differ in their keys, in which arguments they check, and in where the caller's objects
stand among the bytes.  What they have in common is stated once:

* `encodeHeader_eq` — the request header is at most 13 bytes, so the 25 bytes it is given are
  enough, and it is the protocol's header for the type and the counter;
* `IsArray` — what `tnt_object_verify(obj, MP_ARRAY)` lets through: the object has bytes, and the
  first one starts an array;
* `Sends` — the vector a call hands over makes up the package for given pairs; one lemma `…_sends`
  for each function, and these are all that `Direct.exec_wire` uses of it.

`Direct.Accepts` collects the checks of the arguments, `Direct.fields` the pairs the protocol has
for them.  The texts are `Option Bytes` because a `NULL` is checked for; `Direct.TextsFit` says that
`ulen` and its siblings are 32 bits wide.
-/
import TarantoolC.Proto
import TarantoolC.Object.Correct

namespace TarantoolC.Request

open MsgPack Msgpuck Proto Object

/-! ## §1 — `tnt_proto_internal.h` and the common end. -/

/-- What a request function does with its stream. -/
inductive Sent where
  | refused
  | writev (iov : List Bytes)
  deriving Repr, DecidableEq

section Encoders

variable [Msgpuck]

/-- The five calls that write a request header. -/
def headerBytes (code : RequestType) (sync : UInt64) : Bytes :=
  mpEncodeMap 2 ++ mpEncodeUint (UInt64.ofNat HeaderKey.code.num) ++
    mpEncodeUint (UInt64.ofNat code.num) ++ mpEncodeUint (UInt64.ofNat HeaderKey.sync.num) ++
    mpEncodeUint sync

/-- `encode_header`, into an array of 25 bytes. -/
def encodeHeader (code : RequestType) (sync : UInt64) : Option Bytes := do
  let h := headerBytes code sync
  guard (h.length ≤ 25)
  return h

/-- `mp_encode_luint32`. -/
def mpEncodeLuint32 (num : UInt64) : Bytes :=
  if num.toNat ≤ 2 ^ 32 - 1 then mpStoreU8 0xce ++ mpStoreU32 num.toUInt32
  else mpStoreU8 0xcf ++ mpStoreU64 num

/-- The last lines of every function: sum up the vector, put the prefix in front, `writev`.  The
sum is a `size_t`. -/
def sendPackage (reqid : UInt64) (v : List Bytes) : Sent × UInt64 :=
  (.writev (mpEncodeLuint32 (UInt64.ofNat (v.map List.length).sum) :: v), reqid + 1)

/-- `mp_encode_uint` of a key. -/
def mpEncodeKey (k : BodyKey) : Bytes := mpEncodeUint (UInt64.ofNat k.num)

/-- `if (tnt_object_verify(obj, MP_ARRAY)) return -1;` before the rest of a function. -/
def verified (reqid : UInt64) (obj : StreamBuf) (rest : Option (Sent × UInt64)) :
    Option (Sent × UInt64) := do
  if (← tntObjectVerify obj.bytes (some .array)) ≠ 0 then return (.refused, reqid)
  rest

/-! ## §2 — the encoders.

`reqid` is the stream's counter; the result has its new value. -/

/-- `tnt_select`.  All five numbers are written, also those that are 0. -/
def tntSelect (reqid : UInt64) (space index limit offset : UInt32) (iterator : UInt8)
    (key : StreamBuf) : Option (Sent × UInt64) :=
  verified reqid key <| do
    let hdr ← encodeHeader .select reqid
    let body := mpEncodeMap 6 ++
      mpEncodeKey .space ++ mpEncodeUint space.toUInt64 ++
      mpEncodeKey .index ++ mpEncodeUint index.toUInt64 ++
      mpEncodeKey .limit ++ mpEncodeUint limit.toUInt64 ++
      mpEncodeKey .offset ++ mpEncodeUint offset.toUInt64 ++
      mpEncodeKey .iterator ++ mpEncodeUint iterator.toUInt64 ++
      mpEncodeKey .key
    guard (body.length ≤ 64)
    return sendPackage reqid [hdr, body, key.bytes]

/-- `tnt_store_base`.  The operation is a parameter, `tnt_insert` and `tnt_replace` being the two
uses. -/
def tntStoreBase (reqid : UInt64) (space : UInt32) (tuple : StreamBuf) (op : RequestType) :
    Option (Sent × UInt64) :=
  verified reqid tuple <| do
    let hdr ← encodeHeader op reqid
    let body := mpEncodeMap 2 ++
      mpEncodeKey .space ++ mpEncodeUint space.toUInt64 ++
      mpEncodeKey .tuple
    guard (body.length ≤ 64)
    return sendPackage reqid [hdr, body, tuple.bytes]

/-- `tnt_insert`. -/
def tntInsert (reqid : UInt64) (space : UInt32) (tuple : StreamBuf) : Option (Sent × UInt64) :=
  tntStoreBase reqid space tuple .insert

/-- `tnt_replace`. -/
def tntReplace (reqid : UInt64) (space : UInt32) (tuple : StreamBuf) : Option (Sent × UInt64) :=
  tntStoreBase reqid space tuple .replace

/-- `tnt_delete`.  Its key is written behind the numbers. -/
def tntDelete (reqid : UInt64) (space index : UInt32) (key : StreamBuf) :
    Option (Sent × UInt64) :=
  verified reqid key <| do
    let hdr ← encodeHeader .delete reqid
    let body := mpEncodeMap 3 ++
      mpEncodeKey .space ++ mpEncodeUint space.toUInt64 ++
      mpEncodeKey .index ++ mpEncodeUint index.toUInt64 ++
      mpEncodeKey .key
    guard (body.length ≤ 64)
    return sendPackage reqid [hdr, body, key.bytes]

/-- `tnt_update`; the array on the stack is cut in two at `body_start`. -/
def tntUpdate (reqid : UInt64) (space index : UInt32) (key ops : StreamBuf) :
    Option (Sent × UInt64) :=
  verified reqid key <| verified reqid ops <| do
    let hdr ← encodeHeader .update reqid
    let body := mpEncodeMap 4 ++
      mpEncodeKey .space ++ mpEncodeUint space.toUInt64 ++
      mpEncodeKey .index ++ mpEncodeUint index.toUInt64 ++
      mpEncodeKey .key
    let bodyRest := mpEncodeKey .tuple
    guard (body.length + bodyRest.length ≤ 64)
    return sendPackage reqid [hdr, body, key.bytes, bodyRest, ops.bytes]

/-- `tnt_upsert`.  Both objects are checked before the counter is taken. -/
def tntUpsert (reqid : UInt64) (space : UInt32) (tuple ops : StreamBuf) :
    Option (Sent × UInt64) :=
  verified reqid tuple <| verified reqid ops <| do
    let hdr ← encodeHeader .upsert reqid
    let body := mpEncodeMap 3 ++
      mpEncodeKey .space ++ mpEncodeUint space.toUInt64 ++
      mpEncodeKey .tuple
    let bodyRest := mpEncodeKey .ops
    guard (body.length + bodyRest.length ≤ 64)
    return sendPackage reqid [hdr, body, tuple.bytes, bodyRest, ops.bytes]

/-- `tnt_rpc_base` and, with other keys, `tnt_execute`: a text that must not be empty (`none` is
`NULL`) and an array. -/
def textAndArray (reqid : UInt64) (op : RequestType) (textKey arrayKey : BodyKey)
    (text : Option Bytes) (array : StreamBuf) : Option (Sent × UInt64) :=
  match text with
  | none => some (.refused, reqid)
  | some text =>
    if text.length = 0 then some (.refused, reqid)
    else verified reqid array <| do
      let hdr ← encodeHeader op reqid
      -- `mp_encode_strl` takes the `size_t` length as a `uint32_t`
      let body := mpEncodeMap 2 ++ mpEncodeKey textKey ++ mpEncodeStrl (UInt32.ofNat text.length)
      let bodyRest := mpEncodeKey arrayKey
      guard (body.length + bodyRest.length ≤ 64)
      return sendPackage reqid [hdr, body, text, bodyRest, array.bytes]

/-- `is_call`. -/
def isCall (op : RequestType) : Bool := op = .call || op = .call16

/-- `tnt_rpc_base`. -/
def tntRpcBase (reqid : UInt64) (proc : Option Bytes) (args : StreamBuf) (op : RequestType) :
    Option (Sent × UInt64) :=
  textAndArray reqid op (if isCall op then .function else .expression) .tuple proc args

/-- `tnt_call`. -/
def tntCall (reqid : UInt64) (proc : Option Bytes) (args : StreamBuf) : Option (Sent × UInt64) :=
  tntRpcBase reqid proc args .call

/-- `tnt_call_16`. -/
def tntCall16 (reqid : UInt64) (proc : Option Bytes) (args : StreamBuf) : Option (Sent × UInt64) :=
  tntRpcBase reqid proc args .call16

/-- `tnt_eval`. -/
def tntEval (reqid : UInt64) (expr : Option Bytes) (args : StreamBuf) : Option (Sent × UInt64) :=
  tntRpcBase reqid expr args .eval

/-- `tnt_execute`. -/
def tntExecute (reqid : UInt64) (expr : Option Bytes) (params : StreamBuf) :
    Option (Sent × UInt64) :=
  textAndArray reqid .execute .sqlText .sqlBind expr params

/-- `tnt_ping`. -/
def tntPing (reqid : UInt64) : Option (Sent × UInt64) := do
  let hdr ← encodeHeader .ping reqid
  let body := mpEncodeMap 0
  guard (body.length ≤ 2)
  return sendPackage reqid [hdr, body]

end Encoders

/-! ## §3 — `tnt_auth_raw`. -/

/-- `third_party/sha1.c` and `third_party/base64.c` as functions.  `base64Decode` gives the bytes
that decoding the salt of the greeting leaves in an array of 64. -/
class Digest where
  sha1 : Bytes → Bytes
  sha1_length : ∀ bs, (sha1 bs).length = 20
  base64Decode : Bytes → Bytes

open Digest

/-- `tnt_xor`. -/
def tntXor (left right : Bytes) : Bytes := List.zipWith (fun a b => a ^^^ b) left right

/-- `tnt_scramble_prepare`: it reads the first 20 bytes of the salt. -/
def tntScramblePrepare [Digest] (salt pass : Bytes) : Option Bytes := do
  let hash1 := sha1 pass
  let hash2 := sha1 hash1
  guard (20 ≤ salt.length)
  let out := sha1 (salt.take 20 ++ hash2)
  return tntXor hash1 out

/-- The bytes of `"guest"`. -/
def guest : Bytes := [0x67, 0x75, 0x65, 0x73, 0x74]

/-- The bytes of `"chap-sha1"`. -/
def chapSha1 : Bytes := [0x63, 0x68, 0x61, 0x70, 0x2d, 0x73, 0x68, 0x61, 0x31]

/-- `!user || (ulen == 5 && !strncmp(user, "guest", 5))`. -/
def isGuest (user : Option Bytes) : Bool :=
  match user with
  | none => true
  | some u => u = guest

/-- `tnt_auth_raw`.  A guest sends a name and no scramble, and its salt is not looked at. -/
def tntAuthRaw [Msgpuck] [Digest] (reqid : UInt64) (user : Option Bytes) (pass base64Salt : Bytes) :
    Option (Sent × UInt64) := do
  let name := if isGuest user then guest else user.getD guest
  let hdr ← encodeHeader .auth reqid
  let body := mpEncodeMap 2 ++ mpEncodeKey .username ++ mpEncodeStrl (UInt32.ofNat name.length)
  if isGuest user then
    let bodyRest := mpEncodeKey .tuple ++ mpEncodeArray 0
    guard (body.length + bodyRest.length ≤ 64)
    return sendPackage reqid [hdr, body, name, bodyRest]
  else
    let bodyRest := mpEncodeKey .tuple ++ mpEncodeArray 2 ++
      (mpEncodeStrl (UInt32.ofNat chapSha1.length) ++ chapSha1) ++ mpEncodeStrl 20
    guard (body.length + bodyRest.length ≤ 64)
    let scramble ← tntScramblePrepare (base64Decode base64Salt) pass
    return sendPackage reqid [hdr, body, name, bodyRest, scramble]

/-! ## §4 — the pieces, in terms of the format. -/

section Pieces

variable [Msgpuck]

/-- A key is written as an integer of the format, ... -/
theorem mpEncodeKey_eq (k : BodyKey) : mpEncodeKey k = encode (.uint k.num) := by
  rw [mpEncodeKey, mpEncodeUint_eq, UInt64.toNat_ofNat_of_lt' k.num_lt]
  rfl

/-- ... in one byte. -/
theorem mpEncodeKey_length (k : BodyKey) : (mpEncodeKey k).length = 1 := by
  rw [mpEncodeKey_eq]
  cases k <;> rfl

/-- Numbers of 32 bits, ... -/
theorem mpEncodeUint_uint32 (n : UInt32) : mpEncodeUint n.toUInt64 = encode (.uint n.toNat) := by
  rw [mpEncodeUint_eq, UInt32.toNat_toUInt64]
  rfl

/-- ... in at most five bytes, ... -/
theorem mpEncodeUint_uint32_length (n : UInt32) : (mpEncodeUint n.toUInt64).length ≤ 5 := by
  have hlt := n.toNat_lt
  rw [mpEncodeUint_eq, UInt32.toNat_toUInt64, uintForm_min_length]
  split_ifs <;> omega

/-- ... and of 8 bits. -/
theorem mpEncodeUint_uint8 (n : UInt8) : mpEncodeUint n.toUInt64 = encode (.uint n.toNat) := by
  rw [mpEncodeUint_eq, UInt8.toNat_toUInt64]
  rfl

/-- ... for which five are more than enough. -/
theorem mpEncodeUint_uint8_length (n : UInt8) : (mpEncodeUint n.toUInt64).length ≤ 5 := by
  have hlt := n.toNat_lt
  rw [mpEncodeUint_eq, UInt8.toNat_toUInt64, uintForm_min_length]
  split_ifs <;> omega

/-- The header of a text. -/
theorem mpEncodeStrl_length_le (n : UInt32) : (mpEncodeStrl n).length ≤ 5 := by
  rw [mpEncodeStrl_eq]
  exact strForm_min_length_le _

/-- The header and the text behind it are the encoding of the text. -/
theorem mpEncodeStrl_append {s : Bytes} (h : s.length < 2 ^ 32) :
    mpEncodeStrl (UInt32.ofNat s.length) ++ s = encode (.str s) := by
  rw [mpEncodeStrl_eq, UInt32.toNat_ofNat_of_lt' h]
  rfl

/-- The five calls write the header of the protocol: a map of the code and the sync. -/
theorem headerBytes_eq (code : RequestType) (sync : UInt64) :
    headerBytes code sync = encode (header code sync.toNat) := by
  simp only [headerBytes, mpEncodeMap_eq, mpEncodeUint_eq,
    UInt64.toNat_ofNat_of_lt' (HeaderKey.num_lt _), UInt64.toNat_ofNat_of_lt' code.num_lt, encode,
    header, encodeWith, encodePairsWith, List.append_nil, List.append_assoc]
  rfl

/-- One byte for the map, two keys, a code and a sync. -/
theorem headerBytes_length_le (code : RequestType) (sync : UInt64) :
    (headerBytes code sync).length ≤ 13 := by
  have hcode : (uintForm.min code.num).length = 1 := by cases code <;> rfl
  have hsync : (uintForm.min sync.toNat).length ≤ 9 := by
    rw [uintForm_min_length]
    split_ifs <;> omega
  have hkeys : (uintForm.min HeaderKey.code.num).length = 1 ∧
      (uintForm.min HeaderKey.sync.num).length = 1 ∧ (packed.map.min 2).length = 1 := by decide
  obtain ⟨h0, h1, h2⟩ := hkeys
  rw [headerBytes_eq]
  simp only [encode, header, encodeWith, encodePairsWith, List.append_nil, List.length_append,
    List.length_cons, List.length_nil, Nat.zero_add, hcode, h0, h1, h2]
  omega

/-- **`encode_header` stays inside its 25 bytes** and writes the header of the protocol.  A map of
two, a code of one byte, and a sync of up to nine. -/
theorem encodeHeader_eq (code : RequestType) (sync : UInt64) :
    encodeHeader code sync = some (encode (header code sync.toNat)) := by
  have hlen : (headerBytes code sync).length ≤ 25 :=
    Nat.le_trans (headerBytes_length_le code sync) (by decide)
  rw [← headerBytes_eq]
  simp only [encodeHeader, guard, if_pos hlen, bind, Option.bind_some, pure]

/-- `mp_encode_luint32` writes the length prefix. -/
theorem mpEncodeLuint32_eq {n : Nat} (h : n < 2 ^ 64) :
    mpEncodeLuint32 (UInt64.ofNat n) = lengthPrefix n := by
  have hn : (UInt64.ofNat n).toNat = n := UInt64.toNat_ofNat_of_lt' h
  unfold mpEncodeLuint32 lengthPrefix
  rw [hn]
  by_cases hsmall : n < 2 ^ 32
  · rw [if_pos (by omega), if_pos hsmall, mpStoreU8_eq, mpStoreU32_eq, UInt64.toNat_toUInt32, hn,
      Nat.mod_eq_of_lt hsmall]
    rfl
  · rw [if_neg (by omega), if_neg hsmall, mpStoreU8_eq, mpStoreU64_eq, hn]
    rfl

/-- The common end puts the right prefix in front. -/
theorem sendPackage_wire {reqid : UInt64} {type : RequestType} {fields : List Field}
    {v : List Bytes} (hv : v.flatten = packageWire type reqid.toNat fields)
    (hsize : (packageWire type reqid.toNat fields).length < 2 ^ 64) :
    ∃ iov, sendPackage reqid v = (.writev iov, reqid + 1) ∧
      iov.flatten = messageWire type reqid.toNat fields := by
  refine ⟨_, rfl, ?_⟩
  have hsum : (v.map List.length).sum = (packageWire type reqid.toNat fields).length := by
    rw [← hv, List.length_flatten]
  rw [hsum, List.flatten_cons, hv, mpEncodeLuint32_eq hsize]
  rfl

/-- An object that passes `tnt_object_verify(obj, MP_ARRAY)`. -/
def IsArray (obj : StreamBuf) : Prop := ∃ xs, Encodes (.array xs) obj.bytes

/-- The check lets an array through, ... -/
theorem verified_of_isArray {reqid : UInt64} {obj : StreamBuf} (h : IsArray obj)
    (rest : Option (Sent × UInt64)) : verified reqid obj rest = rest := by
  unfold verified
  rw [tntObjectVerify_array_iff.mpr h]
  simp

/-- ... and a call that came through it has an array. -/
theorem isArray_of_verified {reqid reqid' : UInt64} {obj : StreamBuf}
    {rest : Option (Sent × UInt64)} {iov : List Bytes}
    (h : verified reqid obj rest = some (.writev iov, reqid')) : IsArray obj := by
  unfold verified at h
  simp only [bind, Option.bind_eq_some_iff] at h
  obtain ⟨rv, hrv, h⟩ := h
  split at h
  · exact absurd h (by simp [pure])
  · next hz =>
    rw [not_not.mp hz] at hrv
    exact tntObjectVerify_array_iff.mp hrv

end Pieces

/-! ## §5 — all direct requests. -/

/-- A call of a direct encoder.  Texts are `none` for `NULL`, as the encoders test for it. -/
inductive Direct where
  | select (space index limit offset : UInt32) (iterator : UInt8) (key : StreamBuf)
  | insert (space : UInt32) (tuple : StreamBuf)
  | replace (space : UInt32) (tuple : StreamBuf)
  | delete (space index : UInt32) (key : StreamBuf)
  | update (space index : UInt32) (key ops : StreamBuf)
  | upsert (space : UInt32) (tuple ops : StreamBuf)
  | call (proc : Option Bytes) (args : StreamBuf)
  | call16 (proc : Option Bytes) (args : StreamBuf)
  | eval (expr : Option Bytes) (args : StreamBuf)
  | execute (expr : Option Bytes) (params : StreamBuf)
  | ping
  | auth (user : Option Bytes) (pass base64Salt : Bytes)

/-- The request type of a call. -/
def Direct.type : Direct → RequestType
  | .select .. => .select
  | .insert .. => .insert
  | .replace .. => .replace
  | .delete .. => .delete
  | .update .. => .update
  | .upsert .. => .upsert
  | .call .. => .call
  | .call16 .. => .call16
  | .eval .. => .eval
  | .execute .. => .execute
  | .ping => .ping
  | .auth .. => .auth

/-- The texts of the call are shorter than `2^32` bytes (`ulen` is an `int`). -/
def Direct.TextsFit : Direct → Prop
  | .call text _ | .call16 text _ | .eval text _ | .execute text _ | .auth text _ _ =>
    ∀ t, text = some t → t.length < 2 ^ 32
  | _ => True

/-- What the argument checks of a call ask for; for `auth`, that the salt of the greeting has the 20
bytes the scramble is made from. -/
def Direct.Accepts [Digest] : Direct → Prop
  | .select _ _ _ _ _ key | .delete _ _ key => IsArray key
  | .insert _ tuple | .replace _ tuple => IsArray tuple
  | .update _ _ key ops => IsArray key ∧ IsArray ops
  | .upsert _ tuple ops => IsArray tuple ∧ IsArray ops
  | .call text args | .call16 text args | .eval text args | .execute text args =>
    (∃ t, text = some t ∧ t ≠ []) ∧ IsArray args
  | .ping => True
  | .auth user _ salt => isGuest user ∨ 20 ≤ (base64Decode salt).length

def numField (k : BodyKey) (n : Nat) : Field := ⟨k, .value (.uint n)⟩
def textField (k : BodyKey) (s : Bytes) : Field := ⟨k, .value (.str s)⟩
def objectField (k : BodyKey) (obj : StreamBuf) : Field := ⟨k, .object obj.bytes⟩

/-- The answer to the server's challenge: `chap-sha1` and the scramble; nothing for a guest. -/
def credentials [Digest] (user : Option Bytes) (pass base64Salt : Bytes) : Value :=
  if isGuest user then .array []
  else .array [.str chapSha1, .str (tntXor (sha1 pass)
    (sha1 ((base64Decode base64Salt).take 20 ++ sha1 (sha1 pass))))]

/-- The pairs the protocol has for the arguments of a call.  It is what the protocol says a request
of this kind has, in the order in which the encoder writes it.  A package with these pairs is what
`Sends` is about. -/
def Direct.fields [Digest] : Direct → List Field
  | .select space index limit offset iterator key =>
    [numField .space space.toNat, numField .index index.toNat, numField .limit limit.toNat,
      numField .offset offset.toNat, numField .iterator iterator.toNat, objectField .key key]
  | .insert space tuple | .replace space tuple =>
    [numField .space space.toNat, objectField .tuple tuple]
  | .delete space index key =>
    [numField .space space.toNat, numField .index index.toNat, objectField .key key]
  | .update space index key ops =>
    [numField .space space.toNat, numField .index index.toNat, objectField .key key,
      objectField .tuple ops]
  | .upsert space tuple ops =>
    [numField .space space.toNat, objectField .tuple tuple, objectField .ops ops]
  | .call proc args | .call16 proc args =>
    [textField .function (proc.getD []), objectField .tuple args]
  | .eval expr args => [textField .expression (expr.getD []), objectField .tuple args]
  | .execute expr params => [textField .sqlText (expr.getD []), objectField .sqlBind params]
  | .ping => []
  | .auth user pass salt =>
    [textField .username (user.getD guest), ⟨.tuple, .value (credentials user pass salt)⟩]

section Wire

variable [Msgpuck]

/-- The call hands over a vector that makes up the package for these pairs. -/
def Sends (reqid : UInt64) (type : RequestType) (fields : List Field)
    (r : Option (Sent × UInt64)) : Prop :=
  ∃ v, r = some (sendPackage reqid v) ∧ v.flatten = packageWire type reqid.toNat fields

/-- A vector whose first piece is the header and whose others make up the body.  This is the common
end of the encoders: after the pieces of the body there is nothing left to prove but that these are
the pairs. -/
theorem sends_of_body {reqid : UInt64} {type : RequestType} {fields : List Field} {v : List Bytes}
    {room used : Nat} (hroom : used ≤ room) (hv : v.flatten = bodyWire fields) :
    Sends reqid type fields (do
      let hdr ← encodeHeader type reqid
      guard (used ≤ room)
      return sendPackage reqid (hdr :: v)) := by
  refine ⟨encode (header type reqid.toNat) :: v, ?_, ?_⟩
  · simp only [encodeHeader_eq, bind, Option.bind_some, guard, hroom, if_true, pure]
  · rw [List.flatten_cons, hv]
    rfl

omit [Msgpuck] in
/-- A body is the header of a map and the pairs behind it. -/
theorem bodyWire_eq (fields : List Field) : bodyWire fields =
    mapForm.min fields.length ++ (fields.map fun f => encode (.uint f.key.num) ++
      f.payload.wire).flatten := rfl

/-- `tnt_insert` and `tnt_replace`.  The space goes into the piece in front of the tuple, and the
tuple is the caller's. -/
theorem tntStoreBase_sends (reqid : UInt64) (space : UInt32) (op : RequestType)
    {tuple : StreamBuf} (htuple : IsArray tuple) :
    Sends reqid op [numField .space space.toNat, objectField .tuple tuple]
      (tntStoreBase reqid space tuple op) := by
  have h1 := mpEncodeUint_uint32_length space
  have hmap : (mpEncodeMap 2).length = 1 := by rw [mpEncodeMap_eq]; rfl
  rw [tntStoreBase, verified_of_isArray htuple]
  apply sends_of_body
  · simp only [List.length_append, hmap, mpEncodeKey_length]
    omega
  · simp only [bodyWire_eq, numField, objectField, Payload.wire, mpEncodeKey_eq,
      mpEncodeUint_uint32, mpEncodeMap_eq, List.map_cons, List.map_nil, List.flatten_cons,
      List.flatten_nil, List.append_nil, List.append_assoc]
    rfl

/-- `tnt_call`, `tnt_call_16`, `tnt_eval` and `tnt_execute`.  The text is copied by nobody: its
header ends one piece, and it is the next. -/
theorem textAndArray_sends (reqid : UInt64) (op : RequestType) (textKey arrayKey : BodyKey)
    {text : Bytes} (hne : text ≠ []) (hlen : text.length < 2 ^ 32) {array : StreamBuf}
    (harray : IsArray array) :
    Sends reqid op [textField textKey text, objectField arrayKey array]
      (textAndArray reqid op textKey arrayKey (some text) array) := by
  have hpos : ¬ text.length = 0 := by rwa [List.length_eq_zero_iff]
  have h1 := mpEncodeStrl_length_le (UInt32.ofNat text.length)
  have hmap : (mpEncodeMap 2).length = 1 := by rw [mpEncodeMap_eq]; rfl
  simp only [textAndArray, if_neg hpos]
  rw [verified_of_isArray harray]
  apply sends_of_body
  · simp only [List.length_append, hmap, mpEncodeKey_length]
    omega
  · simp only [bodyWire_eq, textField, objectField, Payload.wire, mpEncodeKey_eq, mpEncodeMap_eq,
      ← mpEncodeStrl_append hlen, List.map_cons, List.map_nil, List.flatten_cons,
      List.flatten_nil, List.append_nil, List.append_assoc]
    rfl

/-- What a call with a text and an array asks for.  The converse of the lemma above: without a text,
or with one that is empty, nothing is sent. -/
theorem textAndArray_accepts {reqid reqid' : UInt64} {op : RequestType} {textKey arrayKey : BodyKey}
    {text : Option Bytes} {array : StreamBuf} {iov : List Bytes}
    (h : textAndArray reqid op textKey arrayKey text array = some (.writev iov, reqid')) :
    (∃ t, text = some t ∧ t ≠ []) ∧ IsArray array := by
  cases text with
  | none => exact absurd h (by simp [textAndArray])
  | some t =>
    by_cases hz : t.length = 0
    · exact absurd h (by simp [textAndArray, hz])
    · simp only [textAndArray, if_neg hz] at h
      refine ⟨⟨t, rfl, ?_⟩, isArray_of_verified h⟩
      rintro rfl
      exact hz rfl

/-- One lemma for each function: the pairs it sends.  A ping has none, ... -/
theorem tntPing_sends (reqid : UInt64) : Sends reqid .ping [] (tntPing reqid) := by
  apply sends_of_body
  · rw [mpEncodeMap_eq]
    decide
  · rw [mpEncodeMap_eq]
    rfl

variable [Digest]

/-- Perform a call. -/
def Direct.exec (reqid : UInt64) : Direct → Option (Sent × UInt64)
  | .select space index limit offset iterator key =>
    tntSelect reqid space index limit offset iterator key
  | .insert space tuple => tntInsert reqid space tuple
  | .replace space tuple => tntReplace reqid space tuple
  | .delete space index key => tntDelete reqid space index key
  | .update space index key ops => tntUpdate reqid space index key ops
  | .upsert space tuple ops => tntUpsert reqid space tuple ops
  | .call proc args => tntCall reqid proc args
  | .call16 proc args => tntCall16 reqid proc args
  | .eval expr args => tntEval reqid expr args
  | .execute expr params => tntExecute reqid expr params
  | .ping => tntPing reqid
  | .auth user pass salt => tntAuthRaw reqid user pass salt

/-- ... a select has six, ... -/
theorem tntSelect_sends (reqid : UInt64) (space index limit offset : UInt32) (iterator : UInt8)
    {key : StreamBuf} (hkey : IsArray key) :
    Sends reqid .select (Direct.select space index limit offset iterator key).fields
      (tntSelect reqid space index limit offset iterator key) := by
  have h1 := mpEncodeUint_uint32_length space
  have h2 := mpEncodeUint_uint32_length index
  have h3 := mpEncodeUint_uint32_length limit
  have h4 := mpEncodeUint_uint32_length offset
  have h5 := mpEncodeUint_uint8_length iterator
  have hmap : (mpEncodeMap 6).length = 1 := by rw [mpEncodeMap_eq]; rfl
  rw [tntSelect, verified_of_isArray hkey]
  apply sends_of_body
  · simp only [List.length_append, hmap, mpEncodeKey_length]
    omega
  · simp only [bodyWire_eq, Direct.fields, numField, objectField, Payload.wire, mpEncodeKey_eq,
      mpEncodeUint_uint32, mpEncodeUint_uint8, mpEncodeMap_eq, List.map_cons, List.map_nil,
      List.flatten_cons, List.flatten_nil, List.append_nil, List.append_assoc]
    rfl

/-- ... a delete three, ... -/
theorem tntDelete_sends (reqid : UInt64) (space index : UInt32) {key : StreamBuf}
    (hkey : IsArray key) :
    Sends reqid .delete (Direct.delete space index key).fields
      (tntDelete reqid space index key) := by
  have h1 := mpEncodeUint_uint32_length space
  have h2 := mpEncodeUint_uint32_length index
  have hmap : (mpEncodeMap 3).length = 1 := by rw [mpEncodeMap_eq]; rfl
  rw [tntDelete, verified_of_isArray hkey]
  apply sends_of_body
  · simp only [List.length_append, hmap, mpEncodeKey_length]
    omega
  · simp only [bodyWire_eq, Direct.fields, numField, objectField, Payload.wire, mpEncodeKey_eq,
      mpEncodeUint_uint32, mpEncodeMap_eq, List.map_cons, List.map_nil, List.flatten_cons,
      List.flatten_nil, List.append_nil, List.append_assoc]
    rfl

/-- ... an update four, two of which are the caller's, ... -/
theorem tntUpdate_sends (reqid : UInt64) (space index : UInt32) {key ops : StreamBuf}
    (hkey : IsArray key) (hops : IsArray ops) :
    Sends reqid .update (Direct.update space index key ops).fields
      (tntUpdate reqid space index key ops) := by
  have h1 := mpEncodeUint_uint32_length space
  have h2 := mpEncodeUint_uint32_length index
  have hmap : (mpEncodeMap 4).length = 1 := by rw [mpEncodeMap_eq]; rfl
  rw [tntUpdate, verified_of_isArray hkey, verified_of_isArray hops]
  apply sends_of_body
  · simp only [List.length_append, hmap, mpEncodeKey_length]
    omega
  · simp only [bodyWire_eq, Direct.fields, numField, objectField, Payload.wire, mpEncodeKey_eq,
      mpEncodeUint_uint32, mpEncodeMap_eq, List.map_cons, List.map_nil, List.flatten_cons,
      List.flatten_nil, List.append_nil, List.append_assoc]
    rfl

/-- ... an upsert the tuple and the operations. -/
theorem tntUpsert_sends (reqid : UInt64) (space : UInt32) {tuple ops : StreamBuf}
    (htuple : IsArray tuple) (hops : IsArray ops) :
    Sends reqid .upsert (Direct.upsert space tuple ops).fields
      (tntUpsert reqid space tuple ops) := by
  have h1 := mpEncodeUint_uint32_length space
  have hmap : (mpEncodeMap 3).length = 1 := by rw [mpEncodeMap_eq]; rfl
  rw [tntUpsert, verified_of_isArray htuple, verified_of_isArray hops]
  apply sends_of_body
  · simp only [List.length_append, hmap, mpEncodeKey_length]
    omega
  · simp only [bodyWire_eq, Direct.fields, numField, objectField, Payload.wire, mpEncodeKey_eq,
      mpEncodeUint_uint32, mpEncodeMap_eq, List.map_cons, List.map_nil, List.flatten_cons,
      List.flatten_nil, List.append_nil, List.append_assoc]
    rfl

omit [Msgpuck] in
/-- The scramble, where the salt is long enough. -/
theorem tntScramblePrepare_eq {salt : Bytes} (h : 20 ≤ salt.length) (pass : Bytes) :
    tntScramblePrepare salt pass =
      some (tntXor (sha1 pass) (sha1 (salt.take 20 ++ sha1 (sha1 pass)))) := by
  simp only [tntScramblePrepare, guard, h, if_true, bind, Option.bind_some, pure]

omit [Msgpuck] in
/-- A scramble is as long as a digest. -/
theorem scramble_length (x y : Bytes) : (tntXor (sha1 x) (sha1 y)).length = 20 := by
  rw [tntXor, List.length_zipWith, sha1_length, sha1_length]
  rfl

/-- The answer to a challenge: user and scramble, or a user alone for a guest.  The pairs are
written by hand here, with the tuple as an array of two elements that the encoder opens itself, or
of none. -/
theorem tntAuthRaw_sends (reqid : UInt64) {user : Option Bytes} (pass : Bytes) {salt : Bytes}
    (hlen : ∀ u, user = some u → u.length < 2 ^ 32)
    (hsalt : isGuest user ∨ 20 ≤ (base64Decode salt).length) :
    Sends reqid .auth (Direct.auth user pass salt).fields (tntAuthRaw reqid user pass salt) := by
  have hname : (if isGuest user then guest else user.getD guest) = user.getD guest := by
    cases user with
    | none => rfl
    | some u =>
      by_cases hu : u = guest
      · subst hu; simp [isGuest]
      · simp [isGuest, hu]
  have hshort : (user.getD guest).length < 2 ^ 32 := by
    cases user with
    | none => decide
    | some u => exact hlen u rfl
  -- the scratch memory: what is written into it is shorter
  have h1 := mpEncodeStrl_length_le (UInt32.ofNat (user.getD guest).length)
  have h2 := mpEncodeStrl_length_le 20
  have h3 := mpEncodeStrl_length_le (UInt32.ofNat chapSha1.length)
  have hmap : (mpEncodeMap 2).length = 1 := by rw [mpEncodeMap_eq]; rfl
  have harr : (mpEncodeArray 0).length = 1 ∧ (mpEncodeArray 2).length = 1 := by
    rw [mpEncodeArray_eq, mpEncodeArray_eq]; decide
  obtain ⟨harr0, harr2⟩ := harr
  unfold tntAuthRaw
  rw [hname]
  by_cases hguest : isGuest user
  · simp only [hguest, if_true]
    -- a guest sends an empty array
    apply sends_of_body
    · simp only [List.length_append, hmap, mpEncodeKey_length, harr0]
      omega
    · simp only [bodyWire_eq, Direct.fields, credentials, hguest, if_true, textField, Payload.wire,
        mpEncodeKey_eq, mpEncodeMap_eq, mpEncodeArray_eq, ← mpEncodeStrl_append hshort,
        List.map_cons, List.map_nil, List.flatten_cons, List.flatten_nil, List.append_nil,
        List.append_assoc]
      rfl
  · have hsc := tntScramblePrepare_eq (hsalt.resolve_left hguest) pass
    have h20 := scramble_length pass ((base64Decode salt).take 20 ++ sha1 (sha1 pass))
    set scramble := tntXor (sha1 pass) (sha1 ((base64Decode salt).take 20 ++ sha1 (sha1 pass)))
      with hscramble
    -- the scramble has 20 bytes, as the length in front of it says
    have hstr : mpEncodeStrl 20 ++ scramble = encode (.str scramble) := by
      have happ := mpEncodeStrl_append (s := scramble) (by rw [h20]; decide)
      rw [h20] at happ
      exact happ
    have hchap := mpEncodeStrl_append (s := chapSha1) (by decide)
    have hcreds : encode (.array [.str chapSha1, .str scramble]) =
        arrayForm.min 2 ++ (encode (.str chapSha1) ++ encode (.str scramble)) := by
      simp only [encode, encodeWith, encodeAllWith, List.append_nil]
      rfl
    simp only [hguest, if_false, hsc, Bool.false_eq_true]
    apply sends_of_body
    · have hch : chapSha1.length = 9 := rfl
      simp only [List.length_append, hmap, mpEncodeKey_length, harr2]
      omega
    · simp only [bodyWire_eq, Direct.fields, credentials, hguest, if_false, Bool.false_eq_true,
        ← hscramble, textField, Payload.wire, mpEncodeKey_eq, mpEncodeMap_eq, mpEncodeArray_eq,
        ← mpEncodeStrl_append hshort, hchap, List.map_cons, List.map_nil, List.flatten_cons,
        List.flatten_nil, List.append_nil, List.append_assoc, hstr, hcreds]
      rfl

/-- A call that passes its checks sends the package of its arguments.  One case for each encoder,
each of them a lemma above. -/
theorem Direct.exec_sends (r : Direct) (reqid : UInt64) (htexts : r.TextsFit) (hacc : r.Accepts) :
    Sends reqid r.type r.fields (r.exec reqid) := by
  cases r with
  | select space index limit offset iterator key => exact tntSelect_sends reqid _ _ _ _ _ hacc
  | insert space tuple => exact tntStoreBase_sends reqid space .insert hacc
  | replace space tuple => exact tntStoreBase_sends reqid space .replace hacc
  | delete space index key => exact tntDelete_sends reqid space index hacc
  | update space index key ops => exact tntUpdate_sends reqid space index hacc.1 hacc.2
  | upsert space tuple ops => exact tntUpsert_sends reqid space hacc.1 hacc.2
  | call proc args =>
    obtain ⟨⟨t, rfl, hne⟩, hargs⟩ := hacc
    exact textAndArray_sends reqid .call .function .tuple hne (htexts t rfl) hargs
  | call16 proc args =>
    obtain ⟨⟨t, rfl, hne⟩, hargs⟩ := hacc
    exact textAndArray_sends reqid .call16 .function .tuple hne (htexts t rfl) hargs
  | eval expr args =>
    obtain ⟨⟨t, rfl, hne⟩, hargs⟩ := hacc
    exact textAndArray_sends reqid .eval .expression .tuple hne (htexts t rfl) hargs
  | execute expr params =>
    obtain ⟨⟨t, rfl, hne⟩, hargs⟩ := hacc
    exact textAndArray_sends reqid .execute .sqlText .sqlBind hne (htexts t rfl) hargs
  | ping => exact tntPing_sends reqid
  | auth user pass salt => exact tntAuthRaw_sends reqid pass htexts hacc

/-- A call reaches `writev` only past its checks.  So the checks are all there is between a call and
the wire, and with the lemma before this is an equivalence. -/
theorem Direct.accepts_of_exec {r : Direct} {reqid reqid' : UInt64} {iov : List Bytes}
    (h : r.exec reqid = some (.writev iov, reqid')) : r.Accepts := by
  cases r with
  | select space index limit offset iterator key => exact isArray_of_verified h
  | insert space tuple => exact isArray_of_verified h
  | replace space tuple => exact isArray_of_verified h
  | delete space index key => exact isArray_of_verified h
  | update space index key ops =>
    have hkey : IsArray key := isArray_of_verified h
    -- the second check comes behind the first
    rw [Direct.exec, tntUpdate, verified_of_isArray hkey] at h
    exact ⟨hkey, isArray_of_verified h⟩
  | upsert space tuple ops =>
    have htuple : IsArray tuple := isArray_of_verified h
    rw [Direct.exec, tntUpsert, verified_of_isArray htuple] at h
    exact ⟨htuple, isArray_of_verified h⟩
  | call proc args => exact textAndArray_accepts h
  | call16 proc args => exact textAndArray_accepts h
  | eval expr args => exact textAndArray_accepts h
  | execute expr params => exact textAndArray_accepts h
  | ping => trivial
  | auth user pass salt =>
    by_cases hguest : isGuest user
    · exact .inl hguest
    · by_cases hsalt : 20 ≤ (base64Decode salt).length
      · exact .inr hsalt
      · -- a salt that is too short: no scramble, and nothing is sent
        have hnone : tntScramblePrepare (base64Decode salt) pass = none := by
          simp [tntScramblePrepare, guard, hsalt]
        simp only [Direct.exec, tntAuthRaw, encodeHeader_eq, bind, Option.bind_some, hguest,
          if_false, Bool.false_eq_true, hnone] at h
        simp [Option.bind] at h
        split at h <;> exact absurd h (by simp)

omit [Msgpuck] [Digest] in
/-- What a server reads from a pair: a number, ... -/
theorem numField_reads (k : BodyKey) (n : UInt32) :
    (numField k n.toNat).Reads (k, .uint n.toNat) := by
  have hlt := n.toNat_lt
  refine ⟨rfl, .value ?_⟩
  show n.toNat < 2 ^ 64
  omega

omit [Msgpuck] [Digest] in
/-- ... a text, ... -/
theorem textField_reads (k : BodyKey) {t : Bytes} (h : t.length < 2 ^ 32) :
    (textField k t).Reads (k, .str t) := ⟨rfl, .value h⟩

omit [Msgpuck] [Digest] in
/-- ... and an array, whatever its elements are. -/
theorem objectField_reads (k : BodyKey) {obj : StreamBuf} (h : IsArray obj) :
    ∃ xs, (objectField k obj).Reads (k, .array xs) := by
  obtain ⟨xs, henc⟩ := h
  exact ⟨xs, rfl, .object henc⟩

omit [Msgpuck] in
/-- Every pair of an accepted call stands for a value.  A number stands for itself, a text for a
string, an object for the array it was checked to be.  For the login the tuple stands for the method
and the scramble. -/
theorem Direct.fields_reads (r : Direct) (htexts : r.TextsFit) (hacc : r.Accepts) :
    ∃ pairs, List.Forall₂ Field.Reads r.fields pairs := by
  cases r with
  | select space index limit offset iterator key =>
    obtain ⟨xs, hx⟩ := objectField_reads .key hacc
    have hit : (numField .iterator iterator.toNat).Reads (.iterator, .uint iterator.toNat) := by
      have hlt := iterator.toNat_lt
      refine ⟨rfl, .value ?_⟩
      show iterator.toNat < 2 ^ 64
      omega
    exact ⟨_, .cons (numField_reads .space space) (.cons (numField_reads .index index)
      (.cons (numField_reads .limit limit) (.cons (numField_reads .offset offset)
        (.cons hit (.cons hx .nil)))))⟩
  | insert space tuple =>
    obtain ⟨xs, hx⟩ := objectField_reads .tuple hacc
    exact ⟨_, .cons (numField_reads .space space) (.cons hx .nil)⟩
  | replace space tuple =>
    obtain ⟨xs, hx⟩ := objectField_reads .tuple hacc
    exact ⟨_, .cons (numField_reads .space space) (.cons hx .nil)⟩
  | delete space index key =>
    obtain ⟨xs, hx⟩ := objectField_reads .key hacc
    exact ⟨_, .cons (numField_reads .space space) (.cons (numField_reads .index index)
      (.cons hx .nil))⟩
  | update space index key ops =>
    obtain ⟨xs, hx⟩ := objectField_reads .key hacc.1
    obtain ⟨ys, hy⟩ := objectField_reads .tuple hacc.2
    exact ⟨_, .cons (numField_reads .space space) (.cons (numField_reads .index index)
      (.cons hx (.cons hy .nil)))⟩
  | upsert space tuple ops =>
    obtain ⟨xs, hx⟩ := objectField_reads .tuple hacc.1
    obtain ⟨ys, hy⟩ := objectField_reads .ops hacc.2
    exact ⟨_, .cons (numField_reads .space space) (.cons hx (.cons hy .nil))⟩
  | call proc args =>
    obtain ⟨⟨t, rfl, -⟩, hargs⟩ := hacc
    obtain ⟨xs, hx⟩ := objectField_reads .tuple hargs
    exact ⟨_, .cons (textField_reads .function (htexts t rfl)) (.cons hx .nil)⟩
  | call16 proc args =>
    obtain ⟨⟨t, rfl, -⟩, hargs⟩ := hacc
    obtain ⟨xs, hx⟩ := objectField_reads .tuple hargs
    exact ⟨_, .cons (textField_reads .function (htexts t rfl)) (.cons hx .nil)⟩
  | eval expr args =>
    obtain ⟨⟨t, rfl, -⟩, hargs⟩ := hacc
    obtain ⟨xs, hx⟩ := objectField_reads .tuple hargs
    exact ⟨_, .cons (textField_reads .expression (htexts t rfl)) (.cons hx .nil)⟩
  | execute expr params =>
    obtain ⟨⟨t, rfl, -⟩, hparams⟩ := hacc
    obtain ⟨xs, hx⟩ := objectField_reads .sqlBind hparams
    exact ⟨_, .cons (textField_reads .sqlText (htexts t rfl)) (.cons hx .nil)⟩
  | ping => exact ⟨[], .nil⟩
  | auth user pass salt =>
    have hname : (user.getD guest).length < 2 ^ 32 := by
      cases user with
      | none => decide
      | some u => exact htexts u rfl
    -- the credentials are an array of none or two, with texts of 9 and 20 bytes
    have hcreds : (credentials user pass salt).Fits := by
      unfold credentials
      split
      · exact ⟨by decide, trivial⟩
      · refine ⟨by simp, ?_, ?_, trivial⟩
        · show chapSha1.length < 2 ^ 32
          decide
        · show List.length _ < 2 ^ 32
          rw [scramble_length]
          decide
    have htuple : Field.Reads ⟨.tuple, .value (credentials user pass salt)⟩
        (.tuple, credentials user pass salt) := ⟨rfl, .value hcreds⟩
    exact ⟨_, .cons (textField_reads .username hname) (.cons htuple .nil)⟩

/-- **The wire format of the direct encoders.**  A call reaches `writev` exactly when its arguments
pass the checks; the vector is then the message of the protocol for its arguments, byte for byte,
and a server decodes it to them.  The message has to fit a `size_t`.  The arrays on the stack are
among what is proved: no function writes past the end of one, whatever its arguments. -/
theorem Direct.exec_wire (r : Direct) (reqid : UInt64) (htexts : r.TextsFit)
    (hsize : (packageWire r.type reqid.toNat r.fields).length < 2 ^ 64) :
    (r.Accepts ↔ ∃ iov reqid', r.exec reqid = some (.writev iov, reqid')) ∧
      ∀ iov reqid', r.exec reqid = some (.writev iov, reqid') →
        reqid' = reqid + 1 ∧ iov.flatten = messageWire r.type reqid.toNat r.fields ∧
        ∃ pairs, List.Forall₂ Field.Reads r.fields pairs ∧
          Carries iov.flatten r.type reqid.toNat pairs := by
  -- an accepted request is sent, and its parts joined are the message
  have hsends : r.Accepts → ∃ iov, r.exec reqid = some (.writev iov, reqid + 1) ∧
      iov.flatten = messageWire r.type reqid.toNat r.fields := by
    intro hacc
    obtain ⟨v, hexec, hv⟩ := r.exec_sends reqid htexts hacc
    obtain ⟨iov, hsend, hwire⟩ := sendPackage_wire hv hsize
    exact ⟨iov, by rw [hexec, hsend], hwire⟩
  refine ⟨⟨?_, ?_⟩, ?_⟩
  · intro hacc
    obtain ⟨iov, hexec, -⟩ := hsends hacc
    exact ⟨iov, _, hexec⟩
  · rintro ⟨iov, reqid', hexec⟩
    exact Direct.accepts_of_exec hexec
  · intro iov reqid' hexec
    have hacc := Direct.accepts_of_exec hexec
    -- there is one result only, so what was sent is the message that was to be sent
    obtain ⟨iov', hexec', hwire⟩ := hsends hacc
    rw [hexec] at hexec'
    obtain ⟨hsent, rfl⟩ := Prod.mk.inj (Option.some.inj hexec')
    obtain rfl := Sent.writev.inj hsent
    obtain ⟨pairs, hpairs⟩ := r.fields_reads htexts hacc
    refine ⟨rfl, hwire, pairs, hpairs, ?_⟩
    rw [hwire]
    refine messageWire_carries r.type reqid.toNat_lt hpairs ?_
    cases r <;> (simp only [Direct.fields, List.length_cons, List.length_nil]; omega)

end Wire

/-- A digest for the evaluations below. -/
@[reducible] def zeroDigest : Digest where
  sha1 _ := List.replicate 20 0
  sha1_length _ := rfl
  base64Decode salt := salt

/-- An object with the given bytes. -/
def objectOf (bytes : Bytes) : StreamBuf where
  data := .live bytes
  size := bytes.length
  alloc := bytes.length
  rdoff := 0
  fixed := false

/-- The array of no elements is an array. -/
theorem isArray_empty : IsArray (objectOf [0x90]) :=
  ⟨[], encodes_encodeWith packed_sound (.array []) ⟨by decide, trivial⟩⟩

/-- `tnt_upsert` of `[]` with no operations into space 512, as request 1. -/
theorem tntUpsert_wire :
    let r : Direct := .upsert 512 (objectOf [0x90]) (objectOf [0x90])
    (∃ iov reqid', @Direct.exec Msgpuck.reference zeroDigest 1 r = some (.writev iov, reqid')) ∧
      ∀ iov reqid', @Direct.exec Msgpuck.reference zeroDigest 1 r = some (.writev iov, reqid') →
        iov.flatten = [0xce, 0, 0, 0, 0x0e, 0x82, 0x00, 0x09, 0x01, 0x01,
          0x83, 0x10, 0xcd, 0x02, 0x00, 0x21, 0x90, 0x28, 0x90] := by
  have h := @Direct.exec_wire Msgpuck.reference zeroDigest
    (.upsert 512 (objectOf [0x90]) (objectOf [0x90])) 1 trivial (by decide)
  refine ⟨h.1.mp ⟨isArray_empty, isArray_empty⟩, ?_⟩
  intro iov reqid' hexec
  exact (h.2 iov reqid' hexec).2.1

end TarantoolC.Request
