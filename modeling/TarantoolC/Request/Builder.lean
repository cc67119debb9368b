/-
# TarantoolC.Request.Builder — `struct tnt_request`, its setters and `tnt_request_writeout`.

A request is filled field by field and compiled in one go.  Compiling writes all scalars into one
array `header[128]`, starting nine bytes in so that the length prefix can go in front later, and
cuts the array into pieces between which the caller's key and tuple stand.  The byte of the body's
map header is left open and patched once the pairs are counted, so the vector holds POSITIONS in the
array (`Piece.scratch`), not bytes; they are read when `writev` is called.

`tntRequestWriteout_sends` says what comes out for any request, in terms of the pairs
`TntRequest.fields` it is filled with.

## How the proof is laid out

The vector is made while the array is still being written, and the byte of the map header is written
last.  So nothing can be said about bytes until the end, and the invariant has to be stated for what
WOULD be read:

* `out mem v begin` — the bytes that `writev` would send if the piece that is open from `begin` on
  were closed now;
* `Writer.Inv` — of the writer: every piece lies inside the array (`Piece.Within`), and `out` is the
  header, the open byte, and the pairs written so far, for whatever the open byte will be;
* `Writer.Inv.pairIf` and `Writer.Inv.embed` — the two things the C code does, and all that is ever
  used of them;
* `writeEnd_spec` — patching, summing up and the prefix, once the pairs are known.

The two bounds of the source, 128 bytes for the array and 10 entries for the vector, are not
assumed: `writeEnd` guards them, and they follow from `TntRequest.fields_length` and the lengths of
a key and an integer.  A request whose type has no use for the key slot it was given is the early
`return -1`, for which `TntRequest.fields` is `none`.
-/
import TarantoolC.Request.Direct

namespace TarantoolC.Request

open MsgPack Msgpuck Proto Object

/-! ## §1 — requests and setters. -/

/-- `struct tnt_request`.  `key` and `tuple` are the bytes between the pointers, `none` for `NULL`;
the objects that the `_format` setters own are in `TarantoolC.Request.Format`. -/
structure TntRequest where
  sync : UInt64
  type : RequestType
  spaceId : UInt32
  indexId : UInt32
  offset : UInt32
  limit : UInt32
  iterator : UInt32
  key : Option Bytes
  tuple : Option Bytes
  indexBase : Int32
  deriving Repr, DecidableEq

/-- `tnt_request_init` with the type set: `tnt_request_select` and its siblings. -/
def tntRequestNew (type : RequestType) : TntRequest where
  sync := 0
  type := type
  spaceId := 0
  indexId := 0
  offset := 0
  limit := 0xffffffff
  iterator := 0
  key := none
  tuple := none
  indexBase := 0

/-- `TNT_SBUF_DATA(s)` and `TNT_SBUF_SIZE(s)`: `NULL` as long as nothing was allocated. -/
def memory (s : StreamBuf) : Option Bytes :=
  match s.data with
  | .null => none
  | _ => some s.bytes

/-- A call of a setter.  A name is a pointer (`none` for `NULL`), with a 32-bit length or up to its
zero byte. -/
inductive Setter where
  | space (n : UInt32)
  | index (n : UInt32)
  | offset (n : UInt32)
  | limit (n : UInt32)
  | iterator (n : UInt32)
  | indexBase (n : UInt32)
  | key (s : StreamBuf)
  | func (name : Option CStr)
  | funcz (name : Option Bytes)
  | expr (text : Option CStr)
  | exprz (text : Option Bytes)
  | ops (s : StreamBuf)
  | tuple (s : StreamBuf)

/-- `tnt_request_set_func` and `tnt_request_set_funcz`, once the end of the name is known. -/
def tntRequestSetFunc (req : TntRequest) (name : Option Bytes) : Int × TntRequest :=
  if !isCall req.type then (-1, req)
  else match name with
    | none => (-1, req)
    | some name => (0, { req with key := some name })

/-- `tnt_request_set_expr` and `tnt_request_set_exprz`. -/
def tntRequestSetExpr (req : TntRequest) (text : Option Bytes) : Int × TntRequest :=
  if req.type ≠ .eval then (-1, req)
  else match text with
    | none => (-1, req)
    | some text => (0, { req with key := some text })

/-- `tnt_request_set_ops`: the operations of an update stand in the tuple slot, those of an upsert
in the key slot. -/
def tntRequestSetOps (req : TntRequest) (s : StreamBuf) : Int × TntRequest :=
  if req.type = .update then (0, { req with tuple := memory s })
  else if req.type = .upsert then (0, { req with key := memory s })
  else (-1, req)

/-- Perform a setter call. -/
def Setter.apply (req : TntRequest) : Setter → Int × TntRequest
  | .space n => (0, { req with spaceId := n })
  | .index n => (0, { req with indexId := n })
  | .offset n => (0, { req with offset := n })
  | .limit n => (0, { req with limit := n })
  | .iterator n => (0, { req with iterator := n })
  -- a `uint32_t` that is stored in an `int`
  | .indexBase n => (0, { req with indexBase := n.toInt32 })
  | .key s => (0, { req with key := memory s })
  | .func name => tntRequestSetFunc req (name.map CStr.bytes)
  | .funcz name => tntRequestSetFunc req name
  | .expr text => tntRequestSetExpr req (text.map CStr.bytes)
  | .exprz text => tntRequestSetExpr req text
  | .ops s => tntRequestSetOps req s
  | .tuple s => (0, { req with tuple := memory s })

/-- Setter calls one after the other, with their return values. -/
def runSetters : List Setter → TntRequest → List Int × TntRequest
  | [], req => ([], req)
  | s :: l, req =>
    let (rv, req) := s.apply req
    let (rvs, req) := runSetters l req
    (rv :: rvs, req)

/-! ## §2 — `tnt_request_writeout`. -/

/-- An entry of the vector: a part of the array, or the caller's bytes. -/
inductive Piece where
  | scratch (base len : Nat)
  | ext (bytes : Bytes)
  deriving Repr, DecidableEq

/-- The bytes an entry stands for when `writev` reads it. -/
def Piece.resolve (mem : Bytes) : Piece → Bytes
  | .scratch base len => (mem.drop base).take len
  | .ext bytes => bytes

def Piece.len : Piece → Nat
  | .scratch _ len => len
  | .ext bytes => bytes.length

/-- The local variables of `tnt_request_writeout`: the bytes written from `header + 9` on (`pos` is
behind them), `begin`, the entries of `v` from the second on, and `nd`. -/
structure Writer where
  mem : Bytes
  begin : Nat
  v : List Piece
  nd : Nat
  deriving Repr, DecidableEq

/-- Under a condition, write a pair into the array and count it. -/
def Writer.pairIf (w : Writer) (c : Bool) (bs : Bytes) : Writer :=
  if c then { w with mem := w.mem ++ bs, nd := w.nd + 1 } else w

/-- Write the start of a pair, close the piece, and put the caller's bytes behind it. -/
def Writer.embed (w : Writer) (bs ext : Bytes) : Writer :=
  let mem := w.mem ++ bs
  { mem := mem
    begin := mem.length
    v := w.v ++ [.scratch w.begin (mem.length - w.begin), .ext ext]
    nd := w.nd + 1 }

section Writeout

variable [Msgpuck]

/-- What stands in front of the key; `none` for a type that has none. -/
def keyStart (tp : RequestType) (key : Bytes) : Option Bytes :=
  match tp with
  | .eval => some (mpEncodeKey .expression ++ mpEncodeStrl (UInt32.ofNat key.length))
  | .call16 | .call => some (mpEncodeKey .function ++ mpEncodeStrl (UInt32.ofNat key.length))
  | .select | .update | .delete => some (mpEncodeKey .key)
  | .upsert => some (mpEncodeKey .ops)
  | _ => none

/-- The scalars that precede the key. -/
def writeScalars (req : TntRequest) (w : Writer) : Writer :=
  let tp := req.type
  let w := w.pairIf (decide (tp.num < RequestType.call16.num) || tp = .upsert)
    (mpEncodeKey .space ++ mpEncodeUint req.spaceId.toUInt64)
  let w := w.pairIf (req.indexId ≠ 0 && (tp = .select || tp = .update || tp = .delete))
    (mpEncodeKey .index ++ mpEncodeUint req.indexId.toUInt64)
  let w := w.pairIf (tp = .select) (mpEncodeKey .limit ++ mpEncodeUint req.limit.toUInt64)
  let w := w.pairIf (req.offset ≠ 0 && tp = .select)
    (mpEncodeKey .offset ++ mpEncodeUint req.offset.toUInt64)
  w.pairIf (req.iterator ≠ 0 && tp = .select)
    (mpEncodeKey .iterator ++ mpEncodeUint req.iterator.toUInt64)

/-- `if (req->key) { … }`; `none` for the early `return -1`. -/
def writeKey (req : TntRequest) (w : Writer) : Option Writer :=
  match req.key with
  | none => some w
  | some key => do
    let start ← keyStart req.type key
    return w.embed start key

/-- `if (req->tuple) { … }` and the index base, an `int` that is converted to `uint64_t`. -/
def writeTuple (req : TntRequest) (w : Writer) : Writer :=
  let w := match req.tuple with
    | none => w
    | some tuple => w.embed (mpEncodeKey .tuple) tuple
  w.pairIf (req.indexBase ≠ 0 && (req.type = .update || req.type = .upsert))
    (mpEncodeKey .indexBase ++ mpEncodeUint req.indexBase.toInt64.toUInt64)

/-- From `assert(mp_sizeof_map(nd) == 1)` on: close the last piece, patch the map header at `map`,
sum up, and put the prefix in front of `header + 9`.  The array has 128 bytes and the vector 10
entries. -/
def writeEnd (w : Writer) (map : Nat) : Option (List Bytes) := do
  guard (mpSizeofMap (UInt32.ofNat w.nd) = 1)
  let v := if w.mem.length ≠ w.begin
    then w.v ++ [.scratch w.begin (w.mem.length - w.begin)] else w.v
  guard (9 + w.mem.length ≤ 128 ∧ v.length + 1 ≤ 10)
  let mem := overwrite w.mem map (mpEncodeMap (UInt32.ofNat w.nd))
  let plen := (v.map Piece.len).sum
  return mpEncodeLuint32 (UInt64.ofNat plen) :: v.map (Piece.resolve mem)

/-- The counter a request takes its sync from: it is reset where a caller who keeps `INT64_MAX`
for an error would get that value. -/
def nextSync (reqid : UInt64) (sync : Option UInt64) : UInt64 :=
  if sync = some 0x7fffffffffffffff && reqid &&& 0x7fffffffffffffff = 0x7fffffffffffffff then 0
  else reqid

/-- `tnt_request_writeout`, up to the `writev`: what it does, and `s->reqid` and `req->hdr.sync`
afterwards.  `sync` is the value behind the caller's pointer, if there is one. -/
def tntRequestWriteout (reqid : UInt64) (req : TntRequest) (sync : Option UInt64) :
    Option (Sent × UInt64 × UInt64) :=
  let reqid := nextSync reqid sync
  let req := { req with sync := reqid }
  let hdr := headerBytes req.type req.sync
  -- `char *map = pos++`: the byte holds anything until it is patched
  let w : Writer := { mem := hdr ++ [0], begin := 0, v := [], nd := 0 }
  match writeKey req (writeScalars req w) with
  | none => some (.refused, reqid + 1, req.sync)
  | some w => do
    let iov ← writeEnd (writeTuple req w) hdr.length
    return (.writev iov, reqid + 1, req.sync)

/-- `tnt_request_compile`. -/
def tntRequestCompile (reqid : UInt64) (req : TntRequest) : Option (Sent × UInt64 × UInt64) :=
  tntRequestWriteout reqid req (some 0x7fffffffffffffff)

end Writeout

/-! ## §3 — the writer. -/

/-- The bytes written so far, as `writev` would read them from the memory `mem`. -/
def out (mem : Bytes) (v : List Piece) (begin : Nat) : Bytes :=
  (v.map (Piece.resolve mem)).flatten ++ mem.drop begin

/-- A piece lies inside the first `n` bytes of the array. -/
def Piece.Within (n : Nat) : Piece → Prop
  | .scratch base len => base + len ≤ n
  | .ext _ => True

/-- Inside a longer array as well. -/
theorem Piece.Within.mono {n m : Nat} {p : Piece} (h : p.Within n) (hnm : n ≤ m) : p.Within m := by
  cases p with
  | scratch base len => exact Nat.le_trans h hnm
  | ext bytes => trivial

/-- Bytes written behind a piece do not change it. -/
theorem Piece.Within.resolve_append {mem : Bytes} {p : Piece} (h : p.Within mem.length)
    (bs : Bytes) : p.resolve (mem ++ bs) = p.resolve mem := by
  cases p with
  | ext bytes => rfl
  | scratch base len =>
    have hle : base + len ≤ mem.length := h
    show ((mem ++ bs).drop base).take len = (mem.drop base).take len
    rw [List.drop_append_of_le_length (by omega),
      List.take_append_of_le_length (by rw [List.length_drop]; omega)]

/-- Bytes behind the open piece are what is sent next: no piece that is closed sees them. -/
theorem out_append {mem : Bytes} {v : List Piece} {begin : Nat}
    (hv : ∀ p ∈ v, p.Within mem.length) (hb : begin ≤ mem.length) (bs : Bytes) :
    out (mem ++ bs) v begin = out mem v begin ++ bs := by
  have hmap : v.map (Piece.resolve (mem ++ bs)) = v.map (Piece.resolve mem) := by
    apply List.map_congr_left
    intro p hp
    exact (hv p hp).resolve_append bs
  unfold out
  rw [hmap, List.drop_append_of_le_length hb, List.append_assoc]

/-- Closing a piece changes nothing; the caller's bytes come behind it. -/
theorem out_embed {mem : Bytes} {v : List Piece} {begin : Nat} (ext : Bytes) :
    out mem (v ++ [.scratch begin (mem.length - begin), .ext ext]) mem.length =
      out mem v begin ++ ext := by
  have hlen : (mem.drop begin).length = mem.length - begin := List.length_drop
  unfold out
  rw [List.map_append, List.flatten_append, List.drop_length, List.append_nil, List.append_assoc]
  simp only [List.map_cons, List.map_nil, Piece.resolve, List.flatten_cons, List.flatten_nil,
    List.append_nil]
  rw [List.take_of_length_le (by omega)]

/-- **The writer's invariant.**  The array holds the header, one open byte, and more; whatever that
byte is, the vector reads as the header, the byte, and the pairs so far. -/
structure Writer.Inv (w : Writer) (hdr : Bytes) (fields : List Field) : Prop where
  mem : ∃ tail, w.mem = hdr ++ 0 :: tail ∧
    ∀ b, out (hdr ++ b :: tail) w.v w.begin = hdr ++ b :: (fields.map Field.wire).flatten
  pieces : ∀ p ∈ w.v, p.Within w.mem.length
  begin_le : w.begin ≤ w.mem.length
  count : w.nd = fields.length

/-- Behind the map header there is nothing yet. -/
theorem Writer.inv_start (hdr : Bytes) : Writer.Inv ⟨hdr ++ [0], 0, [], 0⟩ hdr [] where
  mem := ⟨[], rfl, fun b => by simp [out]⟩
  pieces := by simp
  begin_le := Nat.zero_le _
  count := rfl

/-- Bytes written behind the pairs so far. -/
theorem Writer.Inv.out_more {w : Writer} {hdr : Bytes} {fields : List Field} (h : w.Inv hdr fields)
    (bs : Bytes) : ∃ tail, w.mem ++ bs = hdr ++ 0 :: tail ∧ ∀ b,
      out (hdr ++ b :: tail) w.v w.begin =
        hdr ++ b :: ((fields.map Field.wire).flatten ++ bs) := by
  obtain ⟨tail, hmem, hout⟩ := h.mem
  refine ⟨tail ++ bs, ?_, ?_⟩
  · rw [hmem, List.append_assoc]; rfl
  · intro b
    -- the open byte changes no length
    have hlen : (hdr ++ b :: tail).length = w.mem.length := by
      rw [hmem, List.length_append, List.length_append, List.length_cons, List.length_cons]
    have hpieces : ∀ p ∈ w.v, p.Within (hdr ++ b :: tail).length := by
      rw [hlen]; exact h.pieces
    have hb : w.begin ≤ (hdr ++ b :: tail).length := by
      rw [hlen]; exact h.begin_le
    have happ := out_append hpieces hb bs
    rw [hout b, List.append_assoc, List.append_assoc] at happ
    exact happ

/-- A pair written into the array. -/
theorem Writer.Inv.pairIf {w : Writer} {hdr : Bytes} {fields : List Field} (h : w.Inv hdr fields)
    (c : Bool) {bs : Bytes} {f : Field} (hf : bs = f.wire) :
    (w.pairIf c bs).Inv hdr (fields ++ if c then [f] else []) := by
  cases c with
  | false => simpa [Writer.pairIf] using h
  | true =>
    obtain ⟨tail, hmem, hout⟩ := h.out_more bs
    refine ⟨⟨tail, hmem, ?_⟩, ?_, ?_, ?_⟩
    · intro b
      show out (hdr ++ b :: tail) w.v w.begin = _
      rw [hout b, hf]
      simp
    · intro p hp
      exact (h.pieces p hp).mono (by show _ ≤ (w.mem ++ bs).length; rw [List.length_append]; omega)
    · show w.begin ≤ (w.mem ++ bs).length
      have := h.begin_le
      rw [List.length_append]
      omega
    · show w.nd + 1 = _
      rw [h.count]; simp

/-- A pair whose value is the caller's. -/
theorem Writer.Inv.embed {w : Writer} {hdr : Bytes} {fields : List Field} (h : w.Inv hdr fields)
    {bs ext : Bytes} {f : Field} (hf : bs ++ ext = f.wire) :
    (w.embed bs ext).Inv hdr (fields ++ [f]) := by
  have hle := h.begin_le
  obtain ⟨tail, hmem, hout⟩ := h.out_more bs
  refine ⟨⟨tail, hmem, ?_⟩, ?_, ?_, ?_⟩
  · intro b
    have hlen : (w.mem ++ bs).length = (hdr ++ b :: tail).length := by
      rw [hmem]; simp
    have hb : w.begin ≤ (hdr ++ b :: tail).length := by
      rw [← hlen, List.length_append]
      omega
    show out (hdr ++ b :: tail)
      (w.v ++ [.scratch w.begin ((w.mem ++ bs).length - w.begin), .ext ext]) (w.mem ++ bs).length = _
    rw [hlen, out_embed ext, hout b, List.append_assoc, List.cons_append, List.append_assoc, hf]
    simp
  · intro p hp
    show p.Within (w.mem ++ bs).length
    rw [Writer.embed, List.mem_append, List.mem_cons, List.mem_singleton] at hp
    rcases hp with hp | rfl | rfl
    · exact (h.pieces p hp).mono (by rw [List.length_append]; omega)
    · show w.begin + ((w.mem ++ bs).length - w.begin) ≤ (w.mem ++ bs).length
      rw [List.length_append]
      omega
    · trivial
  · exact Nat.le_refl _
  · show w.nd + 1 = _
    rw [h.count]; simp

/-- What a pair may take of the array, ... -/
theorem Writer.pairIf_length_le {w : Writer} {m n : Nat} (hw : w.mem.length ≤ m) (c : Bool)
    {bs : Bytes} (hbs : bs.length ≤ n) : (w.pairIf c bs).mem.length ≤ m + n := by
  cases c with
  | false => exact Nat.le_trans hw (Nat.le_add_right m n)
  | true =>
    show (w.mem ++ bs).length ≤ m + n
    rw [List.length_append]
    omega

/-- ... what the start of one with an object takes, ... -/
theorem Writer.embed_length (w : Writer) (bs ext : Bytes) :
    (w.embed bs ext).mem.length = w.mem.length + bs.length := by
  simp [Writer.embed]

/-- ... and of the vector: a scalar takes no entry, ... -/
@[simp] theorem Writer.pairIf_v (w : Writer) (c : Bool) (bs : Bytes) : (w.pairIf c bs).v = w.v := by
  cases c <;> rfl

/-- ... an object takes two. -/
theorem Writer.embed_v_length (w : Writer) (bs ext : Bytes) :
    (w.embed bs ext).v.length = w.v.length + 2 := by
  simp [Writer.embed]

/-! ## §4 — what a request is filled with. -/

/-- The pair for the key slot, whose meaning depends on the type. -/
def keyField (tp : RequestType) (key : Bytes) : Option Field :=
  match tp with
  | .eval => some (textField .expression key)
  | .call16 | .call => some (textField .function key)
  | .select | .update | .delete => some ⟨.key, .object key⟩
  | .upsert => some ⟨.ops, .object key⟩
  | _ => none

/-- A pair that is there under a condition. -/
def fieldIf (c : Bool) (f : Field) : List Field := if c then [f] else []

def TntRequest.scalarFields (req : TntRequest) : List Field :=
  fieldIf (decide (req.type.num < RequestType.call16.num) || req.type = .upsert)
      (numField .space req.spaceId.toNat) ++
    fieldIf (req.indexId ≠ 0 && (req.type = .select || req.type = .update || req.type = .delete))
      (numField .index req.indexId.toNat) ++
    fieldIf (req.type = .select) (numField .limit req.limit.toNat) ++
    fieldIf (req.offset ≠ 0 && req.type = .select) (numField .offset req.offset.toNat) ++
    fieldIf (req.iterator ≠ 0 && req.type = .select) (numField .iterator req.iterator.toNat)

def TntRequest.tupleFields (req : TntRequest) : List Field :=
  (match req.tuple with
    | none => []
    | some tuple => [⟨.tuple, .object tuple⟩]) ++
  fieldIf (req.indexBase ≠ 0 && (req.type = .update || req.type = .upsert))
    (numField .indexBase req.indexBase.toInt64.toUInt64.toNat)

/-- The pairs of the compiled request; `none` if its type has no use for the key it was given. -/
def TntRequest.fields (req : TntRequest) : Option (List Field) :=
  match req.key with
  | none => some (req.scalarFields ++ req.tupleFields)
  | some key => do
    let f ← keyField req.type key
    return req.scalarFields ++ [f] ++ req.tupleFields

/-- A name or expression in the key slot is shorter than `2^32` bytes. -/
def TntRequest.TextFits (req : TntRequest) : Prop :=
  req.type = .eval ∨ req.type = .call ∨ req.type = .call16 →
    ∀ key, req.key = some key → key.length < 2 ^ 32

section Wire

variable [Msgpuck]

/-- The widest integer. -/
theorem mpEncodeUint_uint64_length (n : UInt64) : (mpEncodeUint n).length ≤ 9 := by
  have hlt := n.toNat_lt
  rw [mpEncodeUint_eq, uintForm_min_length]
  split_ifs <;> omega

/-- A key and a 32-bit number are a pair of the protocol. -/
theorem numField_wire_uint32 (k : BodyKey) (n : UInt32) :
    mpEncodeKey k ++ mpEncodeUint n.toUInt64 = (numField k n.toNat).wire := by
  rw [mpEncodeKey_eq, mpEncodeUint_uint32]
  rfl

/-- The start of the key pair and the key are the pair. -/
theorem keyStart_spec {tp : RequestType} {key : Bytes} {f : Field} (hf : keyField tp key = some f)
    (hlen : tp = .eval ∨ tp = .call ∨ tp = .call16 → key.length < 2 ^ 32) :
    ∃ start, keyStart tp key = some start ∧ start ++ key = f.wire ∧ start.length ≤ 6 := by
  -- a text: key and length in the scratch memory, the text where it is
  have htext : ∀ k : BodyKey, key.length < 2 ^ 32 →
      mpEncodeKey k ++ mpEncodeStrl (UInt32.ofNat key.length) ++ key = (textField k key).wire ∧
        (mpEncodeKey k ++ mpEncodeStrl (UInt32.ofNat key.length)).length ≤ 6 := by
    intro k hk
    have h5 := mpEncodeStrl_length_le (UInt32.ofNat key.length)
    refine ⟨?_, ?_⟩
    · rw [List.append_assoc, mpEncodeStrl_append hk, mpEncodeKey_eq]
      rfl
    · rw [List.length_append, mpEncodeKey_length]
      omega
  -- an object: the key alone
  have hobj : ∀ k : BodyKey, mpEncodeKey k ++ key = Field.wire ⟨k, .object key⟩ ∧
      (mpEncodeKey k).length ≤ 6 := by
    intro k
    rw [mpEncodeKey_length, mpEncodeKey_eq]
    exact ⟨rfl, by omega⟩
  cases tp with
  | eval => obtain rfl := Option.some.inj hf; exact ⟨_, rfl, htext _ (hlen (.inl rfl))⟩
  | call16 =>
    obtain rfl := Option.some.inj hf; exact ⟨_, rfl, htext _ (hlen (.inr (.inr rfl)))⟩
  | call => obtain rfl := Option.some.inj hf; exact ⟨_, rfl, htext _ (hlen (.inr (.inl rfl)))⟩
  | select => obtain rfl := Option.some.inj hf; exact ⟨_, rfl, hobj _⟩
  | update => obtain rfl := Option.some.inj hf; exact ⟨_, rfl, hobj _⟩
  | delete => obtain rfl := Option.some.inj hf; exact ⟨_, rfl, hobj _⟩
  | upsert => obtain rfl := Option.some.inj hf; exact ⟨_, rfl, hobj _⟩
  | insert => exact absurd hf (by simp [keyField])
  | replace => exact absurd hf (by simp [keyField])
  | auth => exact absurd hf (by simp [keyField])
  | execute => exact absurd hf (by simp [keyField])
  | ping => exact absurd hf (by simp [keyField])

/-- The scalars of a request. -/
theorem writeScalars_inv (req : TntRequest) {w : Writer} {hdr : Bytes} (h : w.Inv hdr []) :
    (writeScalars req w).Inv hdr req.scalarFields ∧
      (writeScalars req w).mem.length ≤ w.mem.length + 30 ∧ (writeScalars req w).v = w.v := by
  have hlen : ∀ (k : BodyKey) (n : UInt32), (mpEncodeKey k ++ mpEncodeUint n.toUInt64).length ≤ 6 := by
    intro k n
    have h5 := mpEncodeUint_uint32_length n
    rw [List.length_append, mpEncodeKey_length]
    omega
  refine ⟨?_, ?_, ?_⟩
  · exact ((((h.pairIf _ (numField_wire_uint32 _ _)).pairIf _ (numField_wire_uint32 _ _)).pairIf _
      (numField_wire_uint32 _ _)).pairIf _ (numField_wire_uint32 _ _)).pairIf _
      (numField_wire_uint32 _ _)
  · exact Writer.pairIf_length_le (Writer.pairIf_length_le (Writer.pairIf_length_le
      (Writer.pairIf_length_le (Writer.pairIf_length_le (Nat.le_refl _) _ (hlen _ _))
        _ (hlen _ _)) _ (hlen _ _)) _ (hlen _ _)) _ (hlen _ _)
  · simp only [writeScalars, Writer.pairIf_v]

/-- The tuple and the index base. -/
theorem writeTuple_inv (req : TntRequest) {w : Writer} {hdr : Bytes} {fields : List Field}
    (h : w.Inv hdr fields) :
    (writeTuple req w).Inv hdr (fields ++ req.tupleFields) ∧
      (writeTuple req w).mem.length ≤ w.mem.length + 11 ∧
      (writeTuple req w).v.length ≤ w.v.length + 2 := by
  -- the index base is written as what the conversion has made of it
  have hbase : mpEncodeKey .indexBase ++ mpEncodeUint req.indexBase.toInt64.toUInt64 =
      (numField .indexBase req.indexBase.toInt64.toUInt64.toNat).wire := by
    rw [mpEncodeKey_eq, mpEncodeUint_eq]
    rfl
  have hblen : (mpEncodeKey .indexBase ++
      mpEncodeUint req.indexBase.toInt64.toUInt64).length ≤ 10 := by
    have h9 := mpEncodeUint_uint64_length req.indexBase.toInt64.toUInt64
    rw [List.length_append, mpEncodeKey_length]
    omega
  have hkey := mpEncodeKey_length .tuple
  unfold writeTuple TntRequest.tupleFields
  cases req.tuple with
  | none =>
    refine ⟨h.pairIf _ hbase, ?_, ?_⟩
    · exact Writer.pairIf_length_le (Nat.le_add_right _ 1) _ hblen
    · simp
  | some tuple =>
    -- the object of the caller is not looked at
    have htuple : mpEncodeKey .tuple ++ tuple = Field.wire ⟨.tuple, .object tuple⟩ := by
      rw [mpEncodeKey_eq]
      rfl
    refine ⟨?_, ?_, ?_⟩
    · rw [← List.append_assoc]
      exact (h.embed htuple).pairIf _ hbase
    · refine Writer.pairIf_length_le (m := w.mem.length + 1) ?_ _ hblen
      rw [Writer.embed_length, hkey]
    · simp only [Writer.pairIf_v, Writer.embed_v_length]
      omega

omit [Msgpuck] in
/-- A piece inside the array is as long as it says, ... -/
theorem Piece.Within.resolve_length {mem : Bytes} {p : Piece} (h : p.Within mem.length) :
    (p.resolve mem).length = p.len := by
  cases p with
  | ext bytes => rfl
  | scratch base len =>
    have hle : base + len ≤ mem.length := h
    show ((mem.drop base).take len).length = len
    rw [List.length_take, List.length_drop]
    omega

omit [Msgpuck] in
/-- ... so the prefix is the length of what is sent. -/
theorem sum_len {mem : Bytes} {v : List Piece} (h : ∀ p ∈ v, p.Within mem.length) :
    (v.map Piece.len).sum = ((v.map (Piece.resolve mem)).flatten).length := by
  rw [List.length_flatten, List.map_map]
  congr 1
  apply List.map_congr_left
  intro p hp
  exact ((h p hp).resolve_length).symm

/-- **The end of `tnt_request_writeout`**: with the open byte patched, the vector is the package
behind its length. -/
theorem writeEnd_spec {w : Writer} {hdr : Bytes} {fields : List Field} (h : w.Inv hdr fields)
    (hcount : fields.length < 16) (hroom : w.mem.length ≤ 119) (hv : w.v.length ≤ 8) :
    ∃ v : List Bytes, writeEnd w hdr.length =
        some (mpEncodeLuint32 (UInt64.ofNat (v.map List.length).sum) :: v) ∧
      v.flatten = hdr ++ bodyWire fields := by
  have hnd : (UInt32.ofNat w.nd).toNat = fields.length := by
    rw [h.count]
    exact UInt32.toNat_ofNat_of_lt' (by show fields.length < 2 ^ 32; omega)
  have hmin : mapForm.min fields.length = [UInt8.ofNat (0x80 + fields.length)] := by
    rw [Form.min, if_pos (show fields.length < mapForm.fix from hcount)]
    rfl
  obtain ⟨tail, hmem, hout⟩ := h.mem
  -- the array after the patch
  have hpatch : overwrite w.mem hdr.length (mpEncodeMap (UInt32.ofNat w.nd)) =
      hdr ++ UInt8.ofNat (0x80 + fields.length) :: tail := by
    rw [mpEncodeMap_eq, hnd, hmin, hmem, overwrite, List.take_left]
    simp
  set mem := hdr ++ UInt8.ofNat (0x80 + fields.length) :: tail with hm
  have hlen : w.mem.length = mem.length := by
    rw [hmem, hm, List.length_append, List.length_append, List.length_cons, List.length_cons]
  set last := if w.mem.length ≠ w.begin
    then w.v ++ [.scratch w.begin (w.mem.length - w.begin)] else w.v with hlast
  have hwithin : ∀ p ∈ last, p.Within mem.length := by
    intro p hp
    have hle := h.begin_le
    rw [← hlen]
    rw [hlast] at hp
    split at hp
    · rw [List.mem_append, List.mem_singleton] at hp
      rcases hp with hp | rfl
      · exact h.pieces p hp
      · show w.begin + (w.mem.length - w.begin) ≤ w.mem.length
        omega
    · exact h.pieces p hp
  have hflat : (last.map (Piece.resolve mem)).flatten = hdr ++ bodyWire fields := by
    have ho := hout (UInt8.ofNat (0x80 + fields.length))
    rw [← hm] at ho
    rw [hlast]
    split
    · rw [List.map_append, List.flatten_append]
      simp only [List.map_cons, List.map_nil, Piece.resolve, List.flatten_cons, List.flatten_nil,
        List.append_nil]
      rw [List.take_of_length_le (by rw [List.length_drop, hlen])]
      rw [out] at ho
      rw [ho, bodyWire, hmin]
      rfl
    · next heq =>
      have hnil : mem.drop w.begin = [] := by
        rw [List.drop_eq_nil_iff, ← hlen]
        omega
      rw [out, hnil, List.append_nil] at ho
      rw [ho, bodyWire, hmin]
      rfl
  have hlastlen : last.length + 1 ≤ 10 := by
    rw [hlast]
    split
    · rw [List.length_append, List.length_singleton]
      omega
    · omega
  refine ⟨last.map (Piece.resolve mem), ?_, hflat⟩
  have hsize : mpSizeofMap (UInt32.ofNat w.nd) = 1 := by
    rw [mpSizeofMap_eq, hnd, hmin]
    rfl
  have hguard : 9 + w.mem.length ≤ 128 ∧ last.length + 1 ≤ 10 := ⟨by omega, hlastlen⟩
  have hsum : (last.map Piece.len).sum = ((last.map (Piece.resolve mem)).map List.length).sum := by
    rw [sum_len hwithin, List.length_flatten]
  unfold writeEnd
  simp only [hsize, guard, if_true, bind, Option.bind_some, ← hlast, hguard, hpatch, hsum, pure,
    and_self]

omit [Msgpuck] in
/-- How many pairs there can be: one for each condition, ... -/
theorem fieldIf_length_le (c : Bool) (f : Field) : (fieldIf c f).length ≤ 1 := by
  cases c <;> simp [fieldIf]

omit [Msgpuck] in
/-- ... five scalars, ... -/
theorem TntRequest.scalarFields_length (req : TntRequest) : req.scalarFields.length ≤ 5 := by
  have h1 := fieldIf_length_le (decide (req.type.num < RequestType.call16.num) ||
    req.type = .upsert) (numField .space req.spaceId.toNat)
  have h2 := fieldIf_length_le (req.indexId ≠ 0 && (req.type = .select || req.type = .update ||
    req.type = .delete)) (numField .index req.indexId.toNat)
  have h3 := fieldIf_length_le (req.type = .select) (numField .limit req.limit.toNat)
  have h4 := fieldIf_length_le (req.offset ≠ 0 && req.type = .select)
    (numField .offset req.offset.toNat)
  have h5 := fieldIf_length_le (req.iterator ≠ 0 && req.type = .select)
    (numField .iterator req.iterator.toNat)
  simp only [TntRequest.scalarFields, List.length_append]
  omega

omit [Msgpuck] in
/-- ... the tuple and the index base, ... -/
theorem TntRequest.tupleFields_length (req : TntRequest) : req.tupleFields.length ≤ 2 := by
  have h1 := fieldIf_length_le (req.indexBase ≠ 0 && (req.type = .update || req.type = .upsert))
    (numField .indexBase req.indexBase.toInt64.toUInt64.toNat)
  unfold TntRequest.tupleFields
  rw [List.length_append]
  cases req.tuple with
  | none => simp only [List.length_nil]; omega
  | some t => simp only [List.length_cons, List.length_nil]; omega

omit [Msgpuck] in
/-- ... and with the key slot eight, so that one byte is enough for the header of the map. -/
theorem TntRequest.fields_length {req : TntRequest} {fields : List Field}
    (h : req.fields = some fields) : fields.length ≤ 8 := by
  have hscalar := req.scalarFields_length
  have htuple := req.tupleFields_length
  unfold TntRequest.fields at h
  cases hk : req.key with
  | none =>
    simp only [hk] at h
    obtain rfl := Option.some.inj h
    rw [List.length_append]
    omega
  | some key =>
    simp only [hk, bind, Option.bind_eq_some_iff, pure] at h
    obtain ⟨f, -, hfs⟩ := h
    obtain rfl := Option.some.inj hfs
    rw [List.length_append, List.length_append, List.length_singleton]
    omega

/-- The key is written as the given pairs: as none, or as one. -/
inductive TntRequest.KeyAs (req : TntRequest) : List Field → Prop
  | none (h : req.key = none) : KeyAs req []
  | one {key start : Bytes} {f : Field} (h : req.key = some key)
      (hstart : keyStart req.type key = some start) (hwire : start ++ key = f.wire)
      (hlen : start.length ≤ 6) : KeyAs req [f]

/-- **The vector of a compiled request**: the prefix, and pieces that make up the header and the
body. -/
theorem tntRequestWriteout_pieces (reqid : UInt64) {req : TntRequest} (sync : Option UInt64)
    {keys : List Field} (hkeys : req.KeyAs keys) :
    ∃ v, tntRequestWriteout reqid req sync =
        some (.writev (mpEncodeLuint32 (UInt64.ofNat (v.map List.length).sum) :: v),
          nextSync reqid sync + 1, nextSync reqid sync) ∧
      v.flatten = packageWire req.type (nextSync reqid sync).toNat
        (req.scalarFields ++ keys ++ req.tupleFields) := by
  set r := nextSync reqid sync with hr
  set hdr := headerBytes req.type r with hhdr
  have hlen : hdr.length ≤ 13 := headerBytes_length_le req.type r
  set req' : TntRequest := { req with sync := r } with hreq'
  set w₀ : Writer := { mem := hdr ++ [0], begin := 0, v := [], nd := 0 } with hw₀
  have hl₀ : w₀.mem.length ≤ 14 := by
    rw [hw₀]
    simp only [List.length_append, List.length_singleton]
    omega
  have hinv₀ : w₀.Inv hdr [] := Writer.inv_start hdr
  obtain ⟨hinv₁, hlen₁, hv₁⟩ := writeScalars_inv req' hinv₀
  have hvlen₁ : (writeScalars req' w₀).v.length = 0 := by rw [hv₁]; rfl
  -- scalars, key and tuple, each behind the one before, in the scratch memory and the vector
  have hkey : ∃ w₂, writeKey req' (writeScalars req' w₀) = some w₂ ∧
      w₂.Inv hdr (req.scalarFields ++ keys) ∧ w₂.mem.length ≤ 62 ∧ w₂.v.length ≤ 2 ∧
      keys.length ≤ 1 := by
    unfold writeKey
    cases hkeys with
    | none h =>
      have hk : req'.key = none := h
      rw [hk, List.append_nil]
      exact ⟨_, rfl, hinv₁, by omega, by omega, Nat.zero_le 1⟩
    | @one key start f h hstart hwire h6 =>
      have hk : req'.key = some key := h
      have hstart' : keyStart req'.type key = some start := hstart
      simp only [hk, hstart', bind, Option.bind_some, pure]
      refine ⟨_, rfl, hinv₁.embed hwire, ?_, ?_, Nat.le_refl 1⟩
      · rw [Writer.embed_length]
        omega
      · rw [Writer.embed_v_length]
        omega
  obtain ⟨w₂, hwk, hinv₂, hlen₂, hv₂, hone⟩ := hkey
  obtain ⟨hinv₃, hlen₃, hv₃⟩ := writeTuple_inv req' hinv₂
  have htup : req'.tupleFields = req.tupleFields := rfl
  rw [htup] at hinv₃
  -- a map of at most eight pairs has one byte in front
  have hcount : (req.scalarFields ++ keys ++ req.tupleFields).length ≤ 8 := by
    have hscalar := req.scalarFields_length
    have htuple := req.tupleFields_length
    rw [List.length_append, List.length_append]
    omega
  obtain ⟨v, hend, hflat⟩ := writeEnd_spec hinv₃ (by omega) (by omega) (by omega)
  refine ⟨v, ?_, ?_⟩
  · unfold tntRequestWriteout
    simp only [← hr, ← hhdr, ← hreq', ← hw₀, hwk, hend, bind, Option.bind_some, pure]
  · rw [hflat, hhdr, headerBytes_eq]
    rfl

/-- The pairs of a request are written as they are. -/
theorem TntRequest.fields_keyAs {req : TntRequest} {fields : List Field}
    (hf : req.fields = some fields) (htext : req.TextFits) :
    ∃ keys, req.KeyAs keys ∧ req.scalarFields ++ keys ++ req.tupleFields = fields := by
  unfold TntRequest.fields at hf
  cases hk : req.key with
  | none =>
    simp only [hk] at hf
    exact ⟨[], .none hk, by rw [List.append_nil]; exact Option.some.inj hf⟩
  | some key =>
    simp only [hk, bind, Option.bind_eq_some_iff, pure] at hf
    obtain ⟨f, hfield, hfs⟩ := hf
    obtain ⟨start, hstart, hwire, h6⟩ := keyStart_spec hfield (fun h => htext h key hk)
    exact ⟨[f], .one hk hstart hwire h6, Option.some.inj hfs⟩

/-- **What a compiled request puts on the wire.** -/
theorem tntRequestWriteout_sends {reqid : UInt64} {req : TntRequest} {sync : Option UInt64}
    {fields : List Field} (hf : req.fields = some fields) (htext : req.TextFits)
    (hsize : (packageWire req.type (nextSync reqid sync).toNat fields).length < 2 ^ 64) :
    ∃ iov, tntRequestWriteout reqid req sync =
        some (.writev iov, nextSync reqid sync + 1, nextSync reqid sync) ∧
      iov.flatten = messageWire req.type (nextSync reqid sync).toNat fields := by
  obtain ⟨keys, hkeys, rfl⟩ := TntRequest.fields_keyAs hf htext
  obtain ⟨v, hsend, hpack⟩ := tntRequestWriteout_pieces reqid sync hkeys
  obtain ⟨iov, hpackage, hwire⟩ := sendPackage_wire hpack hsize
  have hiov : mpEncodeLuint32 (UInt64.ofNat (v.map List.length).sum) :: v = iov :=
    Sent.writev.inj (congrArg Prod.fst hpackage)
  refine ⟨iov, ?_, hwire⟩
  rw [hsend, hiov]

end Wire

end TarantoolC.Request
