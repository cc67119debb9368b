/-
# TarantoolC.Tp.Sizes — the sums in front of the encoders.

Every encoder of `tp.h` adds up the sizes of what it is going to write, has `tp_ensure` make that
much room, encodes, and has `tp_add` take that much into the frame.  The sum and the calls that
encode are two lists in the source that have to say the same thing; `Encoder.course` has them side
by side for the thirteen encoders.

`accounts_iff`: they do for nine of them, for `tp_op_splice` as far as its numbers happen to be
equally wide, and never for `tp_delete`, `tp_auth` and `tp_deauth`.

`Encoder.course` is the heart of it: for each encoder the sum as the source adds it up and the
encodings as the source makes them, neither simplified against the other.  `Course.run` is what both
courses of `TarantoolC.Tp.Writer` do with such a pair, and `Encoder.Accounts` asks for two things:
that the sum is the number of bytes encoded, and that these bytes are a body that announces as many
pairs as there will be (`Announces`), counting those that follow-up calls are to supply.

An encoder whose sum is too large leaves bytes in the frame that were never written, and one whose
sum is too small writes past the room it has made.  Both happen.
-/
import TarantoolC.Tp.Agree
import TarantoolC.Request.Scramble

namespace TarantoolC.Tp

open MsgPack Msgpuck Mpsize Request Digest

/-! ## §1 — the encoders that are not in a request both interfaces have.

The others are in `TarantoolC.Tp.Writer`.  Each has its own sum, copied from the source with the
arguments the source gives to `mp_sizeof_…`. -/

/-- `char salt[64]`. -/
abbrev Salt := { bs : Bytes // bs.length = 64 }

/-- The array behind the decoded salt. -/
theorem salt_length (stale : Salt) (decoded : Bytes) :
    scrambleSize ≤ (overwrite stale.val 0 decoded).length := by
  have h64 := stale.property
  simp only [overwrite, scrambleSize, List.length_append, List.length_take, List.length_drop]
  omega

/-- The salt is long enough for a scramble, whatever was in the array, ... -/
theorem scramble_isSome [Digest] (stale : Salt) (salt pass : Bytes) :
    (tpiScramblePrepare (overwrite stale.val 0 (base64Decode salt)) pass).isSome := by
  have heq := (scramblePrepare_eq _ pass).trans
    (tntScramblePrepare_eq (salt_length stale (base64Decode salt)) pass)
  rw [tpiScramblePrepare, heq]
  rfl

/-- The scramble of `tp_auth`: the salt is decoded into an array with whatever in it, and long
enough. -/
def tpScramble [Digest] (stale : Salt) (saltBase64 pass : Bytes) : Bytes :=
  (tpiScramblePrepare (overwrite stale.val 0 (base64Decode saltBase64)) pass).get
    (scramble_isSome stale saltBase64 pass)

/-- ... which is as long as a digest. -/
theorem tpScramble_length [Digest] (stale : Salt) (saltBase64 pass : Bytes) :
    (tpScramble stale saltBase64 pass).length = 20 := by
  have heq := (scramblePrepare_eq _ pass).trans
    (tntScramblePrepare_eq (salt_length stale (base64Decode saltBase64)) pass)
  have hget : tpScramble stale saltBase64 pass = _ := Option.get_of_eq_some _ heq
  rw [hget]
  exact scramble_length _ _

section Code

variable [Mpsize]

/-- `tp_delete`; it measures the header of a map. -/
def tpDelete (R : Option Reserve) (t : Tp) (space : UInt32) : Option (Ret × Tp) :=
  tpRequest R t .delete
    (mpSizeofMap 2 + mpSizeofUint BodyKey.space.num + mpSizeofUint space.toUInt64 +
      mpSizeofUint BodyKey.key.num)
    [mpEncodeUint BodyKey.space.num, mpEncodeUint space.toUInt64, mpEncodeUint BodyKey.key.num]

/-- `tp_op_splice`; it measures `field_no` in the place of the other two numbers. -/
def tpOpSplice (R : Option Reserve) (t : Tp) (fieldNo offset cutLimit : UInt32) (paste : TpStr) :
    Option (Ret × Tp) :=
  tpAppend R t
    (mpSizeofArray 5 + mpSizeofStr 1 + mpSizeofUint fieldNo.toUInt64 +
      mpSizeofUint fieldNo.toUInt64 + mpSizeofUint fieldNo.toUInt64 + mpSizeofStr paste.len)
    -- the operation is `:`
    [mpEncodeArray 5, mpEncodeStr [0x3a], mpEncodeUint fieldNo.toUInt64,
      mpEncodeUint offset.toUInt64, mpEncodeUint cutLimit.toUInt64, mpEncodeStr paste.bytes]

/-- `tp_auth`; it measures the array alone, with an empty string in the place of `chap-sha1`. -/
def tpAuth [Digest] (R : Option Reserve) (t : Tp) (stale : Salt) (saltBase64 : Bytes)
    (user pass : TpStr) : Option (Ret × Tp) :=
  tpRequest R t .auth (mpSizeofArray 2 + mpSizeofStr 0 + mpSizeofStr 20)
    [mpEncodeMap 2,
      mpEncodeUint BodyKey.username.num, mpEncodeStr user.bytes,
      mpEncodeUint BodyKey.tuple.num,
      mpEncodeArray 2, mpEncodeStr chapSha1, mpEncodeStr (tpScramble stale saltBase64 pass.bytes)]

/-- `tp_deauth`; it measures the empty array alone.  `p->size` is set here and in
`tpi_encode_header`, to the same. -/
def tpDeauth (R : Option Reserve) (t : Tp) : Option (Ret × Tp) :=
  tpRequest R t .auth (mpSizeofArray 0)
    [mpEncodeMap 2,
      mpEncodeUint BodyKey.username.num, mpEncodeStr guest,
      mpEncodeUint BodyKey.tuple.num, mpEncodeArray 0]

end Code

/-! ## §2 — sums and encodings.

The two lists, side by side, for each of the thirteen encoders.  That the encoders run as their
course says is by unfolding, and is the only place where the code is opened up. -/

/-- An encoder, with its arguments. -/
inductive Encoder where
  | ping
  | select (space index offset iterator limit : UInt32)
  | insert (space : UInt32)
  | replace (space : UInt32)
  | delete (space : UInt32)
  | call (function : TpStr)
  | eval (expr : TpStr)
  | update (space : UInt32)
  | auth (stale : Salt) (saltBase64 : Bytes) (user pass : TpStr)
  | deauth
  | updatebegin (opCount : UInt32)
  | op (op : UInt8) (fieldNo : UInt32)
  | opSplice (fieldNo offset cutLimit : UInt32) (paste : TpStr)

/-- What an encoder does: the type, if it starts a request, the sum, the encodings. -/
structure Course where
  code : Option RequestType
  size : Nat
  fields : List Bytes

section Courses

variable [Mpsize]

def Course.run (c : Course) (R : Option Reserve) (t : Tp) : Option (Ret × Tp) :=
  match c.code with
  | some code => tpRequest R t code c.size c.fields
  | none => tpAppend R t c.size c.fields

/-- The argument of `tp_ensure` and of `tp_add`. -/
def Course.reserved (c : Course) : Nat :=
  match c.code with
  | some code => c.size + tpiSizeofHeader code
  | none => c.size

/-- The bytes at `p->p`: in a request the length, the header up to the sync, the sync, and what is
encoded behind them. -/
def Course.encoded (c : Course) : Nat :=
  match c.code with
  | some code => 5 + (headFields code).flatten.length + 5 + c.fields.flatten.length
  | none => c.fields.flatten.length

def Course.effect (c : Course) : Effect :=
  match c.code with
  | some code => .start code c.fields.flatten
  | none => .append c.fields.flatten

variable [Digest]

def Encoder.run (R : Option Reserve) (t : Tp) : Encoder → Option (Ret × Tp)
  | .ping => tpPing R t
  | .select space index offset iterator limit => tpSelect R t space index offset iterator limit
  | .insert space => tpInsert R t space
  | .replace space => tpReplace R t space
  | .delete space => tpDelete R t space
  | .call function => tpCall R t function
  | .eval expr => tpEval R t expr
  | .update space => tpUpdate R t space
  | .auth stale saltBase64 user pass => tpAuth R t stale saltBase64 user pass
  | .deauth => tpDeauth R t
  | .updatebegin opCount => tpUpdatebegin R t opCount
  | .op c fieldNo => tpOp R t c fieldNo
  | .opSplice fieldNo offset cutLimit paste => tpOpSplice R t fieldNo offset cutLimit paste

/-- The two lists of each encoder. -/
def Encoder.course : Encoder → Course
  | .ping => ⟨some .ping, mpSizeofMap 0, [mpEncodeMap 0]⟩
  | .select space index offset iterator limit =>
    ⟨some .select,
      mpSizeofMap 6 +
        mpSizeofUint BodyKey.space.num + mpSizeofUint space.toUInt64 +
        mpSizeofUint BodyKey.index.num + mpSizeofUint index.toUInt64 +
        mpSizeofUint BodyKey.offset.num + mpSizeofUint offset.toUInt64 +
        mpSizeofUint BodyKey.limit.num + mpSizeofUint limit.toUInt64 +
        mpSizeofUint BodyKey.iterator.num + mpSizeofUint iterator.toUInt64 +
        mpSizeofUint BodyKey.key.num,
      [mpEncodeMap 6,
        mpEncodeUint BodyKey.space.num, mpEncodeUint space.toUInt64,
        mpEncodeUint BodyKey.index.num, mpEncodeUint index.toUInt64,
        mpEncodeUint BodyKey.offset.num, mpEncodeUint offset.toUInt64,
        mpEncodeUint BodyKey.limit.num, mpEncodeUint limit.toUInt64,
        mpEncodeUint BodyKey.iterator.num, mpEncodeUint iterator.toUInt64,
        mpEncodeUint BodyKey.key.num]⟩
  | .insert space => store .insert space
  | .replace space => store .replace space
  | .delete space =>
    ⟨some .delete,
      mpSizeofMap 2 + mpSizeofUint BodyKey.space.num + mpSizeofUint space.toUInt64 +
        mpSizeofUint BodyKey.key.num,
      [mpEncodeUint BodyKey.space.num, mpEncodeUint space.toUInt64, mpEncodeUint BodyKey.key.num]⟩
  | .call function =>
    ⟨some .call,
      mpSizeofMap 2 + mpSizeofUint BodyKey.function.num + mpSizeofStr function.len +
        mpSizeofUint BodyKey.tuple.num,
      [mpEncodeMap 2, mpEncodeUint BodyKey.function.num, mpEncodeStr function.bytes,
        mpEncodeUint BodyKey.tuple.num]⟩
  | .eval expr =>
    ⟨some .eval,
      mpSizeofMap 2 + mpSizeofUint BodyKey.function.num + mpSizeofStr expr.len +
        mpSizeofUint BodyKey.tuple.num,
      [mpEncodeMap 2, mpEncodeUint BodyKey.expression.num, mpEncodeStr expr.bytes,
        mpEncodeUint BodyKey.tuple.num]⟩
  | .update space =>
    ⟨some .update,
      mpSizeofMap 3 + mpSizeofUint BodyKey.space.num + mpSizeofUint space.toUInt64 +
        mpSizeofUint BodyKey.key.num,
      [mpEncodeMap 3, mpEncodeUint BodyKey.space.num, mpEncodeUint space.toUInt64,
        mpEncodeUint BodyKey.key.num]⟩
  | .auth stale saltBase64 user pass =>
    ⟨some .auth, mpSizeofArray 2 + mpSizeofStr 0 + mpSizeofStr 20,
      [mpEncodeMap 2, mpEncodeUint BodyKey.username.num, mpEncodeStr user.bytes,
        mpEncodeUint BodyKey.tuple.num, mpEncodeArray 2, mpEncodeStr chapSha1,
        mpEncodeStr (tpScramble stale saltBase64 pass.bytes)]⟩
  | .deauth =>
    ⟨some .auth, mpSizeofArray 0,
      [mpEncodeMap 2, mpEncodeUint BodyKey.username.num, mpEncodeStr guest,
        mpEncodeUint BodyKey.tuple.num, mpEncodeArray 0]⟩
  | .updatebegin opCount =>
    ⟨none, mpSizeofUint BodyKey.tuple.num + mpSizeofArray opCount,
      [mpEncodeUint BodyKey.tuple.num, mpEncodeArray opCount]⟩
  | .op c fieldNo =>
    ⟨none, mpSizeofArray 3 + mpSizeofStr 1 + mpSizeofUint fieldNo.toUInt64,
      [mpEncodeArray 3, mpEncodeStr [c], mpEncodeUint fieldNo.toUInt64]⟩
  | .opSplice fieldNo offset cutLimit paste =>
    ⟨none,
      mpSizeofArray 5 + mpSizeofStr 1 + mpSizeofUint fieldNo.toUInt64 +
        mpSizeofUint fieldNo.toUInt64 + mpSizeofUint fieldNo.toUInt64 + mpSizeofStr paste.len,
      [mpEncodeArray 5, mpEncodeStr [0x3a], mpEncodeUint fieldNo.toUInt64,
        mpEncodeUint offset.toUInt64, mpEncodeUint cutLimit.toUInt64, mpEncodeStr paste.bytes]⟩
where
  store (type : RequestType) (space : UInt32) : Course :=
    ⟨some type,
      mpSizeofMap 2 + mpSizeofUint BodyKey.space.num + mpSizeofUint space.toUInt64 +
        mpSizeofUint BodyKey.tuple.num,
      [mpEncodeMap 2, mpEncodeUint BodyKey.space.num, mpEncodeUint space.toUInt64,
        mpEncodeUint BodyKey.tuple.num]⟩

/-- The table is the code. -/
theorem Encoder.run_course (e : Encoder) (R : Option Reserve) (t : Tp) :
    e.run R t = e.course.run R t := by
  cases e <;> rfl

end Courses

/-! ## §3 — what is encoded.

A sum that is right is not all: the header has to announce as many pairs as there will be.  Which
follow-up calls an encoder expects is part of what is said of it. -/

/-- The types of `tp.h` among those of the protocol. -/
def RequestType.proto : RequestType → Proto.RequestType
  | .select => .select
  | .insert => .insert
  | .replace => .replace
  | .update => .update
  | .delete => .delete
  | .call => .call16
  | .auth => .auth
  | .eval => .eval
  | .ping => .ping

/-- The numbers of the types are those of the protocol. -/
theorem RequestType.proto_num (code : RequestType) : code.num.toNat = code.proto.num := by
  cases code <;> rfl

/-- What follow-up calls append for the values that are owed: the key of the first has been written
by the request function, the others come with their keys. -/
def followUp : List Proto.BodyKey → List Bytes → Bytes
  | _ :: keys, bs :: l => bs ++ (List.zipWith (fun k bs => encode (.uint k.num) ++ bs) keys l).flatten
  | _, _ => []

/-- With the values that are owed the body is a map of just these pairs. -/
def Announces (own : List (Proto.BodyKey × Value)) (owed : List Proto.BodyKey) (body : Bytes) : Prop :=
  ∀ items : List (Value × Bytes), items.length = owed.length → (∀ x ∈ items, Encodes x.1 x.2) →
    Encodes (.map ((own ++ owed.zip (items.map Prod.fst)).map fun p => (.uint p.1.num, p.2)))
      (body ++ followUp owed (items.map Prod.snd))

/-- What an encoder supplies, and what its follow-up calls do: after `tp_update` come `tp_key` and
`tp_updatebegin`. -/
def Encoder.Shaped [Mpsize] [Digest] (e : Encoder) : Prop :=
  let bs := e.course.fields.flatten
  match e with
  | .ping => Announces [] [] bs
  | .select space index offset iterator limit =>
    Announces [numPair .space space, numPair .index index, numPair .offset offset,
      numPair .limit limit, numPair .iterator iterator] [.key] bs
  | .insert space | .replace space => Announces [numPair .space space] [.tuple] bs
  | .delete space => Announces [numPair .space space] [.key] bs
  | .call function => Announces [(.function, .str function.bytes)] [.tuple] bs
  | .eval expr => Announces [(.expression, .str expr.bytes)] [.tuple] bs
  | .update space => Announces [numPair .space space] [.key, .tuple] bs
  | .auth stale saltBase64 user pass =>
    Announces [(.username, .str user.bytes),
      (.tuple, .array [.str chapSha1, .str (tpScramble stale saltBase64 pass.bytes)])] [] bs
  | .deauth => Announces [(.username, .str guest), (.tuple, .array [])] [] bs
  -- with its operations behind it: the key and an array of them
  | .updatebegin opCount => ∀ ops l, ops.length = opCount.toNat → EncodesAll ops l →
    ∃ array, bs ++ l = encode (.uint Proto.BodyKey.tuple.num) ++ array ∧ Encodes (.array ops) array
  -- with its argument behind it
  | .op c fieldNo => ∀ v l, Encodes v l →
    Encodes (.array [.str [c], .uint fieldNo.toNat, v]) (bs ++ l)
  | .opSplice fieldNo offset cutLimit paste =>
    Encodes (.array [.str [0x3a], .uint fieldNo.toNat, .uint offset.toNat, .uint cutLimit.toNat,
      .str paste.bytes]) bs

/-- The encoder makes room for, and takes into the frame, exactly the bytes it writes: the header of
a request and the start of its body, or one operation. -/
structure Encoder.Accounts [Mpsize] [Digest] (e : Encoder) : Prop where
  counts : e.course.reserved = e.course.encoded
  framed : ∀ R t frames, Trusted R → Represents t frames → e.course.effect.Legal frames →
    e.run R t = some (.null, t) ∨
      ∃ a t', e.run R t = some (.ptr a, t') ∧ Represents t' (e.course.effect.apply frames)
  header : ∀ code, e.course.code = some code →
    Encodes (Proto.header code.proto 0) ((headFields code).flatten ++ five 0)
  shaped : e.Shaped

/-- How wide a number is. -/
def width (n : UInt32) : Nat := (uintForm.min n.toNat).length

/-- Where the two lists agree. -/
def Encoder.Exact : Encoder → Prop
  | .delete _ | .auth .. | .deauth => False
  | .opSplice fieldNo offset cutLimit _ => width offset + width cutLimit = 2 * width fieldNo
  | _ => True

section Proofs

variable [Mpsize] [Digest]

omit [Digest] in
/-- The header is the same in both. -/
theorem Course.reserved_iff (c : Course) :
    c.reserved = c.encoded ↔ c.size = c.fields.flatten.length := by
  rcases c with ⟨_ | code, size, fields⟩
  · exact Iff.rfl
  · simp only [Course.reserved, Course.encoded, tpiSizeofHeader_eq, headFields_flatten, head_length]
    omega

omit [Mpsize] [Digest] in
/-- A key is one byte, ... -/
theorem key_length (k : BodyKey) : (uintForm.min k.num.toNat).length = 1 := by
  cases k <;> rfl

omit [Digest] in
/-- ... a text its header and its bytes. -/
theorem mpEncodeStr_length (bs : Bytes) (h : bs.length < 2 ^ 32) :
    (mpEncodeStr bs).length = (strForm.min bs.length).length + bs.length := by
  rw [mpEncodeStr_eq bs h, List.length_append]

/-- The sums, encoder by encoder. -/
theorem Encoder.counts_iff (e : Encoder) : e.course.reserved = e.course.encoded ↔ e.Exact := by
  rw [Course.reserved_iff]
  cases e with
  | delete space =>
    have hmap : (mapForm.min (UInt32.toNat 2)).length = 1 := rfl
    refine iff_of_false ?_ id
    simp only [Encoder.course, List.flatten_cons, List.length_append, mpSizeofMap_eq, hmap,
      mpSizeofUint_eq, mpEncodeUint_eq, List.flatten_nil, List.length_nil]
    -- the byte of the map is not written
    omega
  | auth stale saltBase64 user pass =>
    have h20 := tpScramble_length stale saltBase64 pass.bytes
    have hscramble := mpEncodeStr_length (tpScramble stale saltBase64 pass.bytes) (by rw [h20]; simp)
    have hchap := mpEncodeStr_length chapSha1 (by simp [chapSha1])
    rw [h20] at hscramble
    have hsum : (arrayForm.min (UInt32.toNat 2)).length + ((strForm.min (UInt32.toNat 0)).length +
        UInt32.toNat 0) + ((strForm.min (UInt32.toNat 20)).length + UInt32.toNat 20) = 23 := rfl
    have hpart : (strForm.min 20).length = 1 ∧ (strForm.min chapSha1.length).length = 1 ∧
        chapSha1.length = 9 := ⟨rfl, rfl, rfl⟩
    refine iff_of_false ?_ id
    simp only [Encoder.course, List.flatten_cons, List.length_append, hscramble, hchap,
      mpSizeofArray_eq, mpSizeofStr_eq, hsum]
    -- 31 bytes for the two strings of the array alone
    omega
  | deauth =>
    have hguest := mpEncodeStr_length guest (by simp [guest])
    have hsum : (arrayForm.min (UInt32.toNat 0)).length = 1 := rfl
    have hpart : (strForm.min guest.length).length = 1 ∧ guest.length = 5 := ⟨rfl, rfl⟩
    refine iff_of_false ?_ id
    simp only [Encoder.course, List.flatten_cons, List.length_append, hguest, mpSizeofArray_eq, hsum]
    omega
  | opSplice fieldNo offset cutLimit paste =>
    simp [Encoder.course, Encoder.Exact, TpStr.str, width]
    omega
  | _ =>
    simp [Encoder.course, Encoder.course.store, Encoder.Exact, key_length, TpStr.str]
    try omega

omit [Mpsize] [Digest]

/-- The start of a body with these pairs, up to the key of the first value that is owed. -/
def opened (fields : List Proto.Field) (owed : List Proto.BodyKey) : Bytes :=
  mapForm.min (fields.length + owed.length) ++ ((fields.map Proto.Field.wire).flatten ++
    ((owed.take 1).map fun k => encode (.uint k.num)).flatten)

/-- The pairs that are supplied later. -/
def supplied (owed : List Proto.BodyKey) (items : List (Value × Bytes)) : List Proto.Field :=
  List.zipWith (fun k x => ⟨k, .object x.2⟩) owed items

/-- What follow-up calls supply is read as the values they supply, ... -/
theorem supplied_reads {owed : List Proto.BodyKey} {items : List (Value × Bytes)}
    (hlen : items.length = owed.length) (henc : ∀ x ∈ items, Encodes x.1 x.2) :
    List.Forall₂ Proto.Field.Reads (supplied owed items) (owed.zip (items.map Prod.fst)) := by
  induction owed generalizing items with
  | nil => exact .nil
  | cons k owed ih =>
    cases items with
    | nil => exact .nil
    | cons x items =>
      have hrest := ih (Nat.succ.inj hlen) fun y hy => henc y (List.mem_cons_of_mem x hy)
      exact .cons ⟨rfl, .object (henc x List.mem_cons_self)⟩ hrest

/-- ... and its bytes are those they append, but for the first key. -/
theorem supplied_wire (owed : List Proto.BodyKey) (items : List (Value × Bytes))
    (hlen : items.length = owed.length) :
    ((supplied owed items).map Proto.Field.wire).flatten =
      ((owed.take 1).map fun k => encode (.uint k.num)).flatten ++
        followUp owed (items.map Prod.snd) := by
  cases owed with
  | nil => rfl
  | cons k owed =>
    cases items with
    | nil => exact absurd hlen (by simp)
    | cons x items =>
      have hrest : (List.zipWith (fun k x => Proto.Field.mk k (.object x.2)) owed items).map
          Proto.Field.wire =
            List.zipWith (fun k bs => encode (.uint k.num) ++ bs) owed (items.map Prod.snd) := by
        rw [List.map_zipWith, List.zipWith_map_right]
        rfl
      simp only [supplied, List.zipWith_cons_cons, List.map_cons, List.flatten_cons, hrest, followUp,
        List.take_succ_cons, List.take_zero, List.map_nil, List.flatten_nil, List.append_nil,
        Proto.Field.wire, Proto.Payload.wire, List.append_assoc]

/-- A body that has been opened announces what is written and what is owed. -/
theorem opened_announces {fields : List Proto.Field} {own : List (Proto.BodyKey × Value)}
    (h : List.Forall₂ Proto.Field.Reads fields own) {owed : List Proto.BodyKey}
    (hfew : fields.length + owed.length < 2 ^ 32) : Announces own owed (opened fields owed) := by
  intro items hlen henc
  have hreads := List.rel_append h (supplied_reads hlen henc)
  have hcount : (fields ++ supplied owed items).length = fields.length + owed.length := by
    simp only [supplied, List.length_append, List.length_zipWith, hlen, Nat.min_self]
  have hbody : opened fields owed ++ followUp owed (items.map Prod.snd) =
      Proto.bodyWire (fields ++ supplied owed items) := by
    rw [Proto.bodyWire, hcount, List.map_append, List.flatten_append, supplied_wire owed items hlen]
    simp only [opened, List.append_assoc]
  rw [hbody]
  exact Proto.bodyWire_encodes hreads (by rw [hcount]; exact hfew)

end Proofs

section Shapes

variable [Mpsize] [Digest]

/-- Where the fields are the start of a body. -/
theorem announces_of_opened {e : Encoder} {fields : List Proto.Field}
    {own : List (Proto.BodyKey × Value)} {owed : List Proto.BodyKey}
    (heq : e.course.fields.flatten = opened fields owed)
    (h : List.Forall₂ Proto.Field.Reads fields own) (hfew : fields.length + owed.length < 2 ^ 32) :
    Announces own owed e.course.fields.flatten := by
  rw [heq]
  exact opened_announces h hfew

omit [Digest] in
/-- The start of the body of an insert or a replace. -/
theorem store_opened (type : RequestType) (space : UInt32) :
    (Encoder.course.store type space).fields.flatten =
      opened [numField .space space.toNat] [.tuple] := by
  simp only [Encoder.course.store, mpEncodeMap_eq, mpEncodeUint_eq, UInt32.toNat_toUInt64, opened,
    List.map_cons, List.flatten_cons, Proto.Field.wire, List.append_assoc]
  rfl

omit [Digest] in
/-- ... of a call or an evaluation. -/
theorem text_opened (k : BodyKey) (s : TpStr) :
    [mpEncodeMap 2, mpEncodeUint k.num, mpEncodeStr s.bytes,
      mpEncodeUint BodyKey.tuple.num].flatten = opened [textField k.proto s.bytes] [.tuple] := by
  have hk : k.num.toNat = k.proto.num := by cases k <;> rfl
  simp only [mpEncodeMap_eq, mpEncodeUint_eq, hk, TpStr.mpEncodeStr_bytes, opened, List.map_cons,
    List.flatten_cons, Proto.Field.wire, List.append_assoc]
  rfl

/-- **Every encoder whose sum is right writes what is announced.** -/
theorem Encoder.shaped {e : Encoder} (h : e.Exact) : e.Shaped := by
  cases e with
  | ping =>
    have heq : Encoder.ping.course.fields.flatten = opened [] [] := by
      simp only [Encoder.course, mpEncodeMap_eq]
      rfl
    exact announces_of_opened heq .nil (by decide)
  | select space index offset iterator limit =>
    have heq : (Encoder.select space index offset iterator limit).course.fields.flatten =
        opened [numField .space space.toNat, numField .index index.toNat,
          numField .offset offset.toNat, numField .limit limit.toNat,
          numField .iterator iterator.toNat] [.key] := by
      simp only [Encoder.course, mpEncodeMap_eq, mpEncodeUint_eq, UInt32.toNat_toUInt64, opened,
        List.map_cons, List.flatten_cons, Proto.Field.wire, List.append_assoc]
      rfl
    refine announces_of_opened heq ?_ (by simp)
    exact .cons (numField_pair .space space) (.cons (numField_pair .index index)
      (.cons (numField_pair .offset offset) (.cons (numField_pair .limit limit)
        (.cons (numField_pair .iterator iterator) .nil))))
  | insert space =>
    exact announces_of_opened (store_opened .insert space) (.cons (numField_pair .space space) .nil)
      (by simp)
  | replace space =>
    exact announces_of_opened (store_opened .replace space) (.cons (numField_pair .space space) .nil)
      (by simp)
  -- its sum is wrong, and `Exact` excludes it, as it does the authentications
  | delete space => exact absurd h id
  | call function =>
    exact announces_of_opened (text_opened .function function)
      (.cons (textField_reads .function function.lt) .nil) (by simp)
  | eval expr =>
    exact announces_of_opened (text_opened .expression expr)
      (.cons (textField_reads .expression expr.lt) .nil) (by simp)
  | update space =>
    have heq : (Encoder.update space).course.fields.flatten =
        opened [numField .space space.toNat] [.key, .tuple] := by
      simp only [Encoder.course, mpEncodeMap_eq, mpEncodeUint_eq, UInt32.toNat_toUInt64, opened,
        List.map_cons, List.flatten_cons, Proto.Field.wire, List.append_assoc]
      rfl
    exact announces_of_opened heq (.cons (numField_pair .space space) .nil) (by simp)
  | auth stale saltBase64 user pass => exact absurd h id
  | deauth => exact absurd h id
  | updatebegin opCount =>
    intro ops l hlen hall
    -- the announced number of operations is the number that come
    have henc := packed_sound.encodes_array (by rw [hlen]; exact opCount.toNat_lt) hall
    rw [hlen] at henc
    refine ⟨_, ?_, henc⟩
    simp only [Encoder.course, mpEncodeUint_eq, mpEncodeArray_eq, List.flatten_cons,
      List.flatten_nil, List.append_nil, List.append_assoc]
    rfl
  | op c fieldNo =>
    intro v l hv
    have hc : Encodes (.str [c]) (strForm.min 1 ++ [c]) := encodes_str (s := [c]) (by simp)
    have hno := encodes_uint (n := fieldNo.toNat) (by have := fieldNo.toNat_lt; omega)
    have henc := packed_sound.encodes_array (by simp) (.cons hc (.cons hno (.singleton hv)))
    simp only [Encoder.course, mpEncodeUint_eq, mpEncodeArray_eq, mpEncodeStr_one, List.flatten_cons,
      List.flatten_nil, List.append_nil, List.append_assoc, UInt32.toNat_toUInt64] at henc ⊢
    exact henc
  | opSplice fieldNo offset cutLimit paste =>
    have hnum : ∀ n : UInt32, Encodes (.uint n.toNat) (uintForm.min n.toNat) := by
      intro n
      exact encodes_uint (by have := n.toNat_lt; omega)
    have hc : Encodes (.str [0x3a]) (strForm.min 1 ++ [0x3a]) := encodes_str (s := [0x3a]) (by simp)
    have henc := packed_sound.encodes_array (by simp) (.cons hc (.cons (hnum fieldNo)
      (.cons (hnum offset) (.cons (hnum cutLimit) (.singleton (encodes_str paste.lt))))))
    simp only [Encoder.Shaped, Encoder.course, mpEncodeUint_eq, mpEncodeArray_eq, mpEncodeStr_one,
      TpStr.mpEncodeStr_bytes, List.flatten_cons, List.flatten_nil, List.append_nil,
      List.append_assoc, UInt32.toNat_toUInt64] at henc ⊢
    exact henc

omit [Digest] in
/-- The frames a right sum leaves. -/
theorem Course.framed {c : Course} (h : c.size = c.fields.flatten.length) {R : Option Reserve}
    (hR : Trusted R) {t : Tp} {frames : List Frame} (hrep : Represents t frames)
    (hlegal : c.effect.Legal frames) :
    c.run R t = some (.null, t) ∨
      ∃ a t', c.run R t = some (.ptr a, t') ∧ Represents t' (c.effect.apply frames) := by
  rcases c with ⟨_ | code, size, fields⟩
  · -- an append needs a frame to append to
    cases frames with
    | nil => exact absurd rfl hlegal
    | cons f done =>
      rcases tpAppend_spec hR hrep h with ⟨hnull, -⟩ | ⟨a, t', hok, hrep', -⟩
      · exact .inl hnull
      · exact .inr ⟨a, t', hok, hrep'⟩
  · rcases tpRequest_spec hR hrep code h with ⟨hnull, -⟩ | ⟨a, t', hok, hrep', -⟩
    · exact .inl hnull
    · exact .inr ⟨a, t', hok, hrep'⟩

/-- **Which encoders account for what they write**, whatever their arguments: all but `tp_delete`,
`tp_auth` and `tp_deauth`, and `tp_op_splice` where the offset and the limit are together as wide as
twice the number of the field.  For nine of the encoders the two lists have the same lengths
whatever the arguments, and for three they have not, whatever the arguments.  `tp_op_splice`
measures the number of the field in the place of two other numbers, and is right where the widths
come out the same. -/
theorem accounts_iff (e : Encoder) : e.Accounts ↔ e.Exact := by
  constructor
  · intro h
    exact e.counts_iff.mp h.counts
  · intro h
    have hcounts := e.counts_iff.mpr h
    refine ⟨hcounts, ?_, ?_, Encoder.shaped h⟩
    · intro R t frames hR hrep hlegal
      rw [e.run_course]
      exact Course.framed (e.course.reserved_iff.mp hcounts) hR hrep hlegal
    · intro code _
      rw [headFields_flatten]
      exact head_encodes code.proto_num 0

end Shapes

/-- The body of the delete request starts with the key of its space, and a byte that nothing has
written is part of it; in a buffer that is just large enough for its sum the authentication is
written across the end. -/
theorem accounts_delete :
    let _ := Mpsize.reference
    let _ := zeroDigest
    ¬ (Encoder.delete 512).Accounts ∧
      (Encoder.delete 512).course.reserved = 20 ∧ (Encoder.delete 512).course.encoded = 19 ∧
      (tpDelete none (tpInit 0 (List.replicate 20 7)) 512).map (fun x => x.2.bytes.drop 14) =
        some [0x10, 0xcd, 2, 0, 0x20, 7] ∧
      tpAuth none (tpInit 0 (List.replicate 37 0)) ⟨List.replicate 64 0, by decide⟩ []
        ⟨[0x61], by decide⟩ ⟨[0x62], by decide⟩ = none := by
  intro _ _
  refine ⟨fun h => ?_, by decide +kernel, by decide +kernel, by decide +kernel, by decide +kernel⟩
  exact absurd h.counts (by decide +kernel)

end TarantoolC.Tp
