/-
# TarantoolC.Reply — the reply parser (`tnt/tnt_reply.c`).

A reply is a five-byte length prefix, a header map and, mostly, a body map.  The in-place parser
`tnt_reply0` keeps no bytes: what it finds are pointers into the caller's buffer, here SPANS of
offsets.  `tnt_reply_from` reads the same thing from a stream into a buffer of its own.

`tntReply0_spec` is the result: for every reply of the format, keys in any order and any width, the
parser finds exactly the last payload of every key.

## The model of the parsers.

`hdrLoop` and `bodyLoop` are the two loops, with the pointer as an offset; `Hdr` and `Body` are
their local variables, all of them, since a loop that is left by an error has stored nothing.  A
shift by 64 or more has no defined result in C; here it costs the bitmap alone, which is `none` from
there on, so that the other fields can still be spoken of (`tntReply0_bitmap_iff` says when it
happens).

`tntReplyFrom` takes the receive function as a parameter, on states of any type.  So one definition
serves a socket, a buffer and the copying callback of `tnt_reply`.

## The proof.

A header is parsed pair by pair.  `Hdr.record` is what one pair changes, `Hdr.Shows` what has been
found after some pairs, and the induction is over the pairs that are left (`tntReplyHdr0_fold`).
The body is the same with spans in place of numbers; a span is an offset into the body, and is moved
by the length of all that stands before the body at the end (`Span.shift`).
-/
import TarantoolC.Cursor
import TarantoolC.Proto

namespace TarantoolC.Reply

open MsgPack Msgpuck Proto

/-! ## §1 — what is parsed.

A structure with numbers, a bitmap and pointers.  Its pointers are spans, `none` for `NULL`, and
`buf` is the memory that the reply owns, if it does. -/

/-- Two pointers into a buffer, as offsets: first byte, behind the last byte. -/
structure Span where
  first : Nat
  last : Nat
  deriving Repr, DecidableEq

def Span.shift (base : Nat) (s : Span) : Span := ⟨base + s.first, base + s.last⟩

/-- The local variables of `tnt_reply_hdr0`.  `bitmap` is `none` once a shift by 64 or more has made
it undefined. -/
structure Hdr where
  sync : Nat
  code : Nat
  schemaId : Nat
  bitmap : Option UInt64
  deriving Repr, DecidableEq

/-- The local variables of `tnt_reply_body0`; `none` for a `NULL` pointer. -/
structure Body where
  error : Option Span
  data : Option Span
  metadata : Option Span
  sqlinfo : Option Span
  bitmap : Option UInt64
  deriving Repr, DecidableEq

/-- `struct tnt_reply`.  `buf` is the buffer the reply owns, if it owns one. -/
structure TntReply where
  bitmap : Option UInt64
  buf : Option Bytes
  code : Nat
  sync : Nat
  schemaId : Nat
  error : Option Span
  data : Option Span
  metadata : Option Span
  sqlinfo : Option Span
  deriving Repr, DecidableEq

/-- `memset(r, 0, …)`. -/
def zeroReply : TntReply where
  bitmap := some 0
  buf := none
  code := 0
  sync := 0
  schemaId := 0
  error := none
  data := none
  metadata := none
  sqlinfo := none

/-- `bitmap |= (1ULL << key)`. -/
def setBit (bitmap : Option UInt64) (key : Nat) : Option UInt64 :=
  if key < 64 then bitmap.map (· ||| ((1 : UInt64) <<< UInt64.ofNat key)) else none

section Parser

variable [Msgpuck]

/-! ## §2 — the parsers.

Each is a transcription of its source function, with an `Outcome` for the three ways it can end. -/

/-- The loop of `tnt_reply_hdr0`, with the pointer `p`.  The key is a `uint32_t`. -/
def hdrLoop (buf : Bytes) : Nat → Nat → Hdr → Outcome (Hdr × Nat)
  | 0, p, h => .ok (h, p)
  | n + 1, p, h => do
    expectType buf p .uint
    let (num, p) ← decodeUintAt buf p
    let key := num % 2 ^ 32
    expectType buf p .uint
    let h := { h with bitmap := setBit h.bitmap key }
    if key = HeaderKey.sync.num then
      let (v, p) ← decodeUintAt buf p
      hdrLoop buf n p { h with sync := v }
    else if key = HeaderKey.code.num then
      let (v, p) ← decodeUintAt buf p
      hdrLoop buf n p { h with code := v }
    else if key = HeaderKey.schemaId.num then
      let (v, p) ← decodeUintAt buf p
      hdrLoop buf n p { h with schemaId := v }
    else .fail

/-- `tnt_reply_hdr0`: what it stores and `*off`. -/
def tntReplyHdr0 (buf : Bytes) : Outcome (Hdr × Nat) :=
  match mpCheck buf with
  | none => .fail
  | some _ => do
    expectType buf 0 .map
    let (n, p) ← decodeMapAt buf 0
    hdrLoop buf n p ⟨0, 0, 0, some 0⟩

/-- One turn of the loop of `tnt_reply_body0`, behind the key. -/
def bodyStep (buf : Bytes) (key p : Nat) (b : Body) : Outcome (Body × Nat) :=
  if key = ResponseKey.error.num then do
    expectType buf p .str
    let (first, p) ← decodeStrAt buf p
    return ({ b with error := some ⟨first, p⟩ }, p)
  else if key = ResponseKey.data.num then do
    expectType buf p .array
    let q ← nextAt buf p
    return ({ b with data := some ⟨p, q⟩ }, q)
  else if key = ResponseKey.metadata.num then do
    expectType buf p .array
    let q ← nextAt buf p
    return ({ b with metadata := some ⟨p, q⟩ }, q)
  else if key = ResponseKey.sqlInfo.num then do
    expectType buf p .map
    let q ← nextAt buf p
    return ({ b with sqlinfo := some ⟨p, q⟩ }, q)
  else do
    let q ← nextAt buf p
    return (b, q)

/-- The loop of `tnt_reply_body0`; the type of the key is not looked at. -/
def bodyLoop (buf : Bytes) : Nat → Nat → Body → Outcome (Body × Nat)
  | 0, p, b => .ok (b, p)
  | n + 1, p, b => do
    let (num, p) ← decodeUintAt buf p
    let key := num % 2 ^ 32
    let (b, p) ← bodyStep buf key p b
    bodyLoop buf n p { b with bitmap := setBit b.bitmap key }

/-- `tnt_reply_body0`. -/
def tntReplyBody0 (buf : Bytes) : Outcome (Body × Nat) :=
  match mpCheck buf with
  | none => .fail
  | some _ => do
    expectType buf 0 .map
    let (n, p) ← decodeMapAt buf 0
    bodyLoop buf n p ⟨none, none, none, none, some 0⟩

/-- `if (r) { … }` at the end of `tnt_reply_hdr0`. -/
def TntReply.setHdr (r : TntReply) (h : Hdr) : TntReply :=
  { r with
    sync := h.sync, code := h.code % 2 ^ 15, schemaId := h.schemaId, bitmap := h.bitmap }

/-- `if (r) { … }` at the end of `tnt_reply_body0`, for a body that starts at `base` in the buffer
the pointers are to point into. -/
def TntReply.setBody (r : TntReply) (base : Nat) (b : Body) : TntReply :=
  { r with
    error := b.error.map (Span.shift base)
    data := b.data.map (Span.shift base)
    metadata := b.metadata.map (Span.shift base)
    sqlinfo := b.sqlinfo.map (Span.shift base)
    bitmap := r.bitmap.bind fun x => b.bitmap.map (x ||| ·) }

/-- `TNT_REPLY_IPROTO_HDR_SIZE`. -/
def iprotoHdrSize : Nat := 5

/-- `tnt_reply_len`: the return value and `*len`.  The sums are `size_t`. -/
def tntReplyLen (buf : Bytes) : Outcome (Int × Nat) :=
  if buf.length < iprotoHdrSize then .ok (1, iprotoHdrSize - buf.length)
  else do
    expectType buf 0 .uint
    let (length, _) ← decodeUintAt buf 0
    let total := (length + iprotoHdrSize) % 2 ^ 64
    if buf.length < total then .ok (1, total - buf.length) else .ok (0, total)

/-- `tnt_reply0`, with `r` other than `NULL`: the return value, the reply, and `*off` if it is
written. -/
def tntReply0 (r : TntReply) (buf : Bytes) : Option (Int × TntReply × Option Nat) :=
  match tntReplyLen buf with
  | .undef => none
  | .fail => some (-1, r, none)
  | .ok (rv, length) =>
    if rv = 1 then some (1, r, some length)
    else if length < iprotoHdrSize then none   -- `length - TNT_REPLY_IPROTO_HDR_SIZE` wraps
    else
      let data := (buf.drop iprotoHdrSize).take (length - iprotoHdrSize)
      match tntReplyHdr0 data with
      | .undef => none
      | .fail => some (-1, r, none)
      | .ok (h, hdrLength) =>
        let r := r.setHdr h
        if data.length ≠ hdrLength then
          match tntReplyBody0 (data.drop hdrLength) with
          | .undef => none
          | .fail => some (-1, r, none)
          | .ok (b, _) => some (0, r.setBody (iprotoHdrSize + hdrLength) b, some length)
        else some (0, r, some length)

/-- What `tnt_reply_from` does with the announced bytes, once it has them in a buffer of its own. -/
def parseOwned (buf : Bytes) : Outcome TntReply := do
  let (h, hdrLength) ← tntReplyHdr0 buf
  let r := ({ zeroReply with buf := some buf } : TntReply).setHdr h
  if buf.length = hdrLength then .ok r
  else do
    let (b, _) ← tntReplyBody0 (buf.drop hdrLength)
    return r.setBody hdrLength b

/-- `tnt_reply_from`, with a receive function on states `σ` (its result, the bytes it has stored,
the state after it) and the answers of the allocator.  Every failure goes through the rollback: the
reply is cleared, the result is -1.  `none` is undefined behaviour, also that of the receive
function. -/
def tntReplyFrom {σ : Type} (alloc : Nat → Bool) (rcv : σ → Nat → Option (Int × Bytes × σ)) (s : σ) :
    Option (Int × TntReply × σ) := do
  let (rc, length, s) ← rcv s iprotoHdrSize
  if rc = -1 then return (-1, zeroReply, s)
  match (do expectType length 0 .uint; decodeUintAt length 0 : Outcome (Nat × Nat)) with
  | .undef => none
  | .fail => return (-1, zeroReply, s)
  | .ok (size, _) =>
    if !alloc size then return (-1, zeroReply, s)
    let (rc, buf, s) ← rcv s size
    if rc = -1 then return (-1, zeroReply, s)
    if buf.length ≠ size then none   -- bytes that nobody has stored would be read
    match parseOwned buf with
    | .undef => none
    | .fail => return (-1, zeroReply, s)
    | .ok r => return (0, r, s)

end Parser

/-! ## §3 — replies of the format.

A header map and a body map, each as pairs with the bytes they have on the wire.  `HeaderPair` and
`BodyPair` are what the protocol says of their types. -/

/-- A pair of a reply header. -/
def HeaderPair (w : WirePair) : Prop :=
  (w.key = HeaderKey.code.num ∨ w.key = HeaderKey.sync.num ∨ w.key = HeaderKey.schemaId.num) ∧
    ∃ n, w.val = .uint n

/-- A pair of a reply body: what the client looks at has the type it expects. -/
structure BodyPair (w : WirePair) : Prop where
  key_lt : w.key < 2 ^ 32
  error : w.key = ResponseKey.error.num → w.val.ty = .str
  data : w.key = ResponseKey.data.num → w.val.ty = .array
  metadata : w.key = ResponseKey.metadata.num → w.val.ty = .array
  sqlInfo : w.key = ResponseKey.sqlInfo.num → w.val.ty = .map

/-- The number of a pair. -/
def numOf (w : WirePair) : Nat :=
  match w.val with
  | .uint n => n
  | _ => 0

/-- The text of a pair. -/
def textOf (w : WirePair) : Bytes :=
  match w.val with
  | .str s => s
  | _ => []

/-- The last number a header gives for a key, 0 if it gives none. -/
def lastNum (k : HeaderKey) (pairs : List WirePair) : Nat :=
  match lastPair k.num pairs with
  | some (_, w) => numOf w
  | none => 0

/-- The span of a payload that ends its pair, for pairs that start at `base`. -/
def spanOf (payload : WirePair → Bytes) (base : Nat) (at' : List WirePair × WirePair) : Span :=
  let stop := base + (wirePairs (at'.1 ++ [at'.2])).length
  ⟨stop - (payload at'.2).length, stop⟩

/-- The span of the last payload of a key. -/
def lastSpan (payload : WirePair → Bytes) (base : Nat) (k : ResponseKey) (pairs : List WirePair) :
    Option Span :=
  (lastPair k.num pairs).map (spanOf payload base)

/-- One more pair: its number counts, if the key is the one. -/
theorem lastNum_snoc (k : HeaderKey) (l : List WirePair) (w : WirePair) :
    lastNum k (l ++ [w]) = if w.key = k.num then numOf w else lastNum k l := by
  unfold lastNum
  rw [lastPair_snoc]
  split_ifs <;> rfl

/-- The same for payloads. -/
theorem lastSpan_snoc (payload : WirePair → Bytes) (base : Nat) (k : ResponseKey)
    (l : List WirePair) (w : WirePair) :
    lastSpan payload base k (l ++ [w]) =
      if w.key = k.num then some (spanOf payload base (l, w)) else lastSpan payload base k l := by
  unfold lastSpan
  rw [lastPair_snoc]
  split_ifs <;> rfl

/-! ## §4 — the header.

All keys are numbers and all values are, so the loop goes through to the end whatever they are. -/

section Spec

variable [Msgpuck]

/-- The header after the pairs `done`. -/
def Hdr.Shows (h : Hdr) (done : List WirePair) : Prop :=
  h.sync = lastNum .sync done ∧ h.code = lastNum .code done ∧ h.schemaId = lastNum .schemaId done

omit [Msgpuck] in
/-- The keys of the format are not cut off at 32 bits, ... -/
theorem HeaderPair.key_lt {w : WirePair} (h : HeaderPair w) : w.key % 2 ^ 32 = w.key := by
  rcases h.1 with hk | hk | hk <;> rw [hk] <;> rfl

/-- A pair that `tnt_reply_hdr0` takes: it looks at the low 32 bits of the key only. -/
def HeaderNumber (w : WirePair) : Prop :=
  (w.key % 2 ^ 32 = HeaderKey.code.num ∨ w.key % 2 ^ 32 = HeaderKey.sync.num ∨
    w.key % 2 ^ 32 = HeaderKey.schemaId.num) ∧ ∃ n, w.val = .uint n

omit [Msgpuck] in
/-- ... so the parser takes the pair. -/
theorem HeaderPair.number {w : WirePair} (h : HeaderPair w) : HeaderNumber w := by
  rw [HeaderNumber, h.key_lt]
  exact h

/-- What a pair changes in the header. -/
def Hdr.record (h : Hdr) (w : WirePair) : Hdr :=
  let h := { h with bitmap := setBit h.bitmap (w.key % 2 ^ 32) }
  if w.key % 2 ^ 32 = HeaderKey.sync.num then { h with sync := numOf w }
  else if w.key % 2 ^ 32 = HeaderKey.code.num then { h with code := numOf w }
  else { h with schemaId := numOf w }

omit [Msgpuck] in
/-- **A pair of the header** is recorded, ... -/
theorem Hdr.Shows.record {h : Hdr} {done : List WirePair} (hshows : h.Shows done) {w : WirePair}
    (hw : HeaderPair w) : (h.record w).Shows (done ++ [w]) := by
  obtain ⟨hsync, hcode, hschema⟩ := hshows
  -- the keys are 0, 1 and 5
  have h01 : HeaderKey.code.num ≠ HeaderKey.sync.num := by decide
  have h50 : HeaderKey.schemaId.num ≠ HeaderKey.code.num := by decide
  have h51 : HeaderKey.schemaId.num ≠ HeaderKey.sync.num := by decide
  rw [Hdr.record, hw.key_lt]
  rcases hw.1 with hk | hk | hk
  · simp only [Hdr.Shows, lastNum_snoc, hk, hsync, hschema, h01, h50.symm, if_true, if_false,
      and_self]
  · simp only [Hdr.Shows, lastNum_snoc, hk, hcode, hschema, h01.symm, h51.symm, if_true, if_false,
      and_self]
  · simp only [Hdr.Shows, lastNum_snoc, hk, hsync, hcode, h50, h51, if_true, if_false, and_self]

omit [Msgpuck] in
/-- ... and so are all of them, by induction on the pairs to come. -/
theorem Hdr.Shows.fold {h : Hdr} {done todo : List WirePair} (hshows : h.Shows done)
    (hw : ∀ w ∈ todo, HeaderPair w) : (todo.foldl Hdr.record h).Shows (done ++ todo) := by
  induction todo generalizing h done with
  | nil => rwa [List.append_nil]
  | cons w todo ih =>
    have hrest := ih (hshows.record (hw w (by simp))) (fun x hx => hw x (by simp [hx]))
    rwa [List.append_assoc, List.singleton_append] at hrest

/-- One pair of the header. -/
theorem hdrLoop_step (pre rest : Bytes) {w : WirePair} (hw : HeaderNumber w) (n : Nat) (h : Hdr) :
    hdrLoop (pre ++ (w.bytes ++ rest)) (n + 1) pre.length h =
      hdrLoop (pre ++ (w.bytes ++ rest)) n (pre ++ w.bytes).length (h.record w) := by
  obtain ⟨hkey, num, hnum⟩ := hw
  have hnumOf : numOf w = num := by rw [numOf, hnum]
  have htype := w.expectType_key pre rest
  have hdec := w.decodeUintAt_key pre rest
  have htype' : expectType (pre ++ (w.bytes ++ rest)) (pre ++ w.keyBytes).length .uint = .ok () :=
    w.expectType_val pre rest (by rw [hnum]; rfl)
  have hdec' := w.decodeUintAt_val pre rest hnum
  rw [Hdr.record, hnumOf]
  simp only [hdrLoop, htype, hdec, Outcome.ok_bind, htype']
  -- the keys are 0, 1 and 5
  have h01 : HeaderKey.code.num ≠ HeaderKey.sync.num := by decide
  have h50 : HeaderKey.schemaId.num ≠ HeaderKey.code.num := by decide
  have h51 : HeaderKey.schemaId.num ≠ HeaderKey.sync.num := by decide
  rcases hkey with hk | hk | hk
  · simp only [hk, h01, if_true, if_false, hdec', Outcome.ok_bind]
  · simp only [hk, if_true, hdec', Outcome.ok_bind]
  · simp only [hk, h50, h51, if_true, if_false, hdec', Outcome.ok_bind]

/-- The loop over the header. -/
theorem hdrLoop_fold (pre rest : Bytes) {todo : List WirePair} (hw : ∀ w ∈ todo, HeaderNumber w)
    (h : Hdr) :
    hdrLoop (pre ++ (wirePairs todo ++ rest)) todo.length pre.length h =
      .ok (todo.foldl Hdr.record h, (pre ++ wirePairs todo).length) := by
  induction todo generalizing pre h with
  | nil => simp [hdrLoop, wirePairs]
  | cons w todo ih =>
    have hstep := hdrLoop_step pre (wirePairs todo ++ rest) (hw w (by simp)) todo.length h
    have hrest := ih (pre ++ w.bytes) (fun x hx => hw x (by simp [hx])) (h.record w)
    rw [wirePairs_cons, List.append_assoc, List.length_cons, hstep, ← List.append_assoc pre, hrest,
      List.append_assoc, List.foldl_cons]

/-- **`tnt_reply_hdr0`** on a header it takes, whatever follows in the string. -/
theorem tntReplyHdr0_fold {m : WireMap} (hw : ∀ w ∈ m.pairs, HeaderNumber w) (rest : Bytes) :
    tntReplyHdr0 (m.bytes ++ rest) =
      .ok (m.pairs.foldl Hdr.record ⟨0, 0, 0, some 0⟩, m.bytes.length) := by
  have hcheck := mpCheck_front m.encodes rest
  have htype : expectType (m.bytes ++ rest) 0 .map = .ok () := expectType_front [] rest m.encodes
  have hmap : decodeMapAt (m.bytes ++ rest) 0 = .ok (m.pairs.length, m.head.length) := by
    have h := m.decodeMapAt_front [] (wirePairs m.pairs ++ rest)
    rw [WireMap.bytes, List.append_assoc]
    exact h
  rw [tntReplyHdr0, hcheck]
  simp only [htype, hmap, Outcome.ok_bind]
  rw [WireMap.bytes, List.append_assoc, hdrLoop_fold m.head rest hw]

/-- ... and on a header of the format. -/
theorem tntReplyHdr0_spec {m : WireMap} (hw : ∀ w ∈ m.pairs, HeaderPair w) (rest : Bytes) :
    ∃ h, tntReplyHdr0 (m.bytes ++ rest) = .ok (h, m.bytes.length) ∧ h.Shows m.pairs := by
  refine ⟨_, tntReplyHdr0_fold (fun w h => (hw w h).number) rest, ?_⟩
  have hzero : Hdr.Shows ⟨0, 0, 0, some 0⟩ [] := ⟨rfl, rfl, rfl⟩
  exact hzero.fold hw

/-! ## §5 — the body.

Keys that are not known are passed over, and so are their values; those that are known have a type,
and what is kept is where the value begins and ends. -/

/-- The body after the pairs `done`, which start at `base`. -/
structure Body.Shows (b : Body) (base : Nat) (done : List WirePair) : Prop where
  error : b.error = lastSpan textOf base .error done
  data : b.data = lastSpan WirePair.valBytes base .data done
  metadata : b.metadata = lastSpan WirePair.valBytes base .metadata done
  sqlinfo : b.sqlinfo = lastSpan WirePair.valBytes base .sqlInfo done

/-- What a pair that ends at `stop` changes in the body. -/
def Body.record (b : Body) (w : WirePair) (stop : Nat) : Body :=
  if w.key = ResponseKey.error.num then
    { b with error := some ⟨stop - (textOf w).length, stop⟩ }
  else if w.key = ResponseKey.data.num then
    { b with data := some ⟨stop - w.valBytes.length, stop⟩ }
  else if w.key = ResponseKey.metadata.num then
    { b with metadata := some ⟨stop - w.valBytes.length, stop⟩ }
  else if w.key = ResponseKey.sqlInfo.num then
    { b with sqlinfo := some ⟨stop - w.valBytes.length, stop⟩ }
  else b

omit [Msgpuck] in
/-- **A pair of the body** is recorded, ... -/
theorem Body.Shows.record {b : Body} {base : Nat} {done : List WirePair} (h : b.Shows base done)
    (w : WirePair) :
    (b.record w (base + (wirePairs (done ++ [w])).length)).Shows base (done ++ [w]) := by
  -- the four keys are pairwise different
  have h12 : ResponseKey.error.num ≠ ResponseKey.data.num := by decide
  have h13 : ResponseKey.error.num ≠ ResponseKey.metadata.num := by decide
  have h14 : ResponseKey.error.num ≠ ResponseKey.sqlInfo.num := by decide
  have h23 : ResponseKey.data.num ≠ ResponseKey.metadata.num := by decide
  have h24 : ResponseKey.data.num ≠ ResponseKey.sqlInfo.num := by decide
  have h34 : ResponseKey.metadata.num ≠ ResponseKey.sqlInfo.num := by decide
  obtain ⟨he, hd, hm, hs⟩ := h
  unfold Body.record
  split_ifs with k1 k2 k3 k4
  · refine ⟨?_, ?_, ?_, ?_⟩ <;> rw [lastSpan_snoc, k1]
    · rw [if_pos rfl]; rfl
    · rw [if_neg h12]; exact hd
    · rw [if_neg h13]; exact hm
    · rw [if_neg h14]; exact hs
  · refine ⟨?_, ?_, ?_, ?_⟩ <;> rw [lastSpan_snoc, k2]
    · rw [if_neg h12.symm]; exact he
    · rw [if_pos rfl]; rfl
    · rw [if_neg h23]; exact hm
    · rw [if_neg h24]; exact hs
  · refine ⟨?_, ?_, ?_, ?_⟩ <;> rw [lastSpan_snoc, k3]
    · rw [if_neg h13.symm]; exact he
    · rw [if_neg h23.symm]; exact hd
    · rw [if_pos rfl]; rfl
    · rw [if_neg h34]; exact hs
  · refine ⟨?_, ?_, ?_, ?_⟩ <;> rw [lastSpan_snoc, k4]
    · rw [if_neg h14.symm]; exact he
    · rw [if_neg h24.symm]; exact hd
    · rw [if_neg h34.symm]; exact hm
    · rw [if_pos rfl]; rfl
  · refine ⟨?_, ?_, ?_, ?_⟩ <;> rw [lastSpan_snoc]
    · rw [if_neg k1]; exact he
    · rw [if_neg k2]; exact hd
    · rw [if_neg k3]; exact hm
    · rw [if_neg k4]; exact hs

/-- One turn, at the value of a pair. -/
theorem bodyStep_spec (pre rest : Bytes) {w : WirePair} (hw : BodyPair w) (b : Body) :
    bodyStep (pre ++ (w.bytes ++ rest)) w.key (pre ++ w.keyBytes).length b =
      .ok (b.record w (pre ++ w.bytes).length, (pre ++ w.bytes).length) := by
  have hnext := w.nextAt_val pre rest
  have hstart := w.val_start pre
  unfold bodyStep Body.record
  split_ifs with k1 k2 k3 k4
  · have hty := hw.error k1
    obtain ⟨s, hs⟩ := Value.eq_str_of_ty hty
    have htext : textOf w = s := by rw [textOf, hs]
    simp only [w.expectType_val pre rest hty, w.decodeStrAt_val pre rest hs, htext, Outcome.ok_bind,
      Outcome.pure_eq]
  -- the other three keep the value as it is, if it has the type they ask for
  · simp only [w.expectType_val pre rest (hw.data k2), hnext, Outcome.ok_bind, Outcome.pure_eq, hstart]
  · simp only [w.expectType_val pre rest (hw.metadata k3), hnext, Outcome.ok_bind, Outcome.pure_eq,
      hstart]
  · simp only [w.expectType_val pre rest (hw.sqlInfo k4), hnext, Outcome.ok_bind, Outcome.pure_eq,
      hstart]
  · simp only [hnext, Outcome.ok_bind, Outcome.pure_eq]

/-- What a turn of the loop makes of the body: the pair, and its bit. -/
def Body.turn (b : Body) (w : WirePair) (stop : Nat) : Body :=
  let b := b.record w stop
  { b with bitmap := setBit b.bitmap w.key }

omit [Msgpuck] in
/-- ... and its bit is set. -/
theorem Body.Shows.turn {b : Body} {base : Nat} {done : List WirePair} (h : b.Shows base done)
    (w : WirePair) :
    (b.turn w (base + (wirePairs (done ++ [w])).length)).Shows base (done ++ [w]) := by
  have hrec := h.record w
  exact ⟨hrec.error, hrec.data, hrec.metadata, hrec.sqlinfo⟩

/-- One pair of the body. -/
theorem bodyLoop_step (pre rest : Bytes) {w : WirePair} (hw : BodyPair w) (n : Nat) (b : Body) :
    bodyLoop (pre ++ (w.bytes ++ rest)) (n + 1) pre.length b =
      bodyLoop (pre ++ (w.bytes ++ rest)) n (pre ++ w.bytes).length
        (b.turn w (pre ++ w.bytes).length) := by
  have hdec := w.decodeUintAt_key pre rest
  have hstep := bodyStep_spec pre rest hw b
  have hmod : w.key % 2 ^ 32 = w.key := Nat.mod_eq_of_lt hw.key_lt
  simp only [bodyLoop, hdec, Outcome.ok_bind, hmod, hstep]
  rfl

/-- The loop over the body; its pairs start at `base`. -/
theorem bodyLoop_spec (head rest : Bytes) {todo done : List WirePair} {b : Body}
    (hw : ∀ w ∈ todo, BodyPair w) (hshows : b.Shows head.length done) :
    ∃ b', b'.Shows head.length (done ++ todo) ∧
      bodyLoop (head ++ (wirePairs (done ++ todo) ++ rest)) todo.length
          (head ++ wirePairs done).length b =
        .ok (b', (head ++ wirePairs (done ++ todo)).length) := by
  induction todo generalizing done b with
  | nil =>
    refine ⟨b, by rwa [List.append_nil], ?_⟩
    simp [bodyLoop]
  | cons w todo ih =>
    -- the pair that this turn reads stands right behind those that are done
    have hmem : head ++ (wirePairs (done ++ w :: todo) ++ rest) =
        (head ++ wirePairs done) ++ (w.bytes ++ (wirePairs todo ++ rest)) := by
      rw [wirePairs_append, wirePairs_cons]
      simp only [List.append_assoc]
    have hsnoc : (head ++ wirePairs done) ++ w.bytes = head ++ wirePairs (done ++ [w]) := by
      rw [wirePairs_append, wirePairs_cons]
      simp [wirePairs]
    have hstep := bodyLoop_step (head ++ wirePairs done) (wirePairs todo ++ rest) (hw w (by simp))
      todo.length b
    -- after the turn the body shows one pair more, which is where the induction goes on
    have hturn := hshows.turn w
    rw [← List.length_append, ← hsnoc] at hturn
    obtain ⟨b', hshows', hrest⟩ := ih (fun x hx => hw x (by simp [hx])) hturn
    rw [List.append_assoc, List.singleton_append, ← hsnoc] at hrest
    rw [List.append_assoc, List.singleton_append] at hshows'
    refine ⟨b', hshows', ?_⟩
    rw [hmem] at hrest ⊢
    rw [List.length_cons, hstep]
    exact hrest

/-- `tnt_reply_body0` on a map is its loop. -/
theorem tntReplyBody0_loop (m : WireMap) :
    tntReplyBody0 m.bytes = bodyLoop (m.head ++ (wirePairs m.pairs ++ [])) m.pairs.length
      m.head.length ⟨none, none, none, none, some 0⟩ := by
  have hcheck := mpCheck_front m.encodes []
  have htype := expectType_front [] [] m.encodes
  have hmap := m.decodeMapAt_front [] (wirePairs m.pairs)
  rw [List.append_nil] at hcheck htype
  have htype' : expectType m.bytes 0 .map = .ok () := htype
  have hmap' : decodeMapAt m.bytes 0 = .ok (m.pairs.length, m.head.length) := hmap
  rw [tntReplyBody0, hcheck]
  simp only [htype', hmap', Outcome.ok_bind, List.append_nil]
  rfl

/-- **`tnt_reply_body0`** on a body of the format. -/
theorem tntReplyBody0_spec {m : WireMap} (hw : ∀ w ∈ m.pairs, BodyPair w) :
    ∃ b, tntReplyBody0 m.bytes = .ok (b, m.bytes.length) ∧ b.Shows m.head.length m.pairs := by
  obtain ⟨b, hshows, hloop⟩ := @bodyLoop_spec _ m.head [] m.pairs []
    ⟨none, none, none, none, some 0⟩ hw ⟨rfl, rfl, rfl, rfl⟩
  refine ⟨b, ?_, hshows⟩
  have hnone : m.head ++ wirePairs [] = m.head := List.append_nil _
  rw [hnone] at hloop
  rw [tntReplyBody0_loop]
  exact hloop

/-! ## §6 — whole replies.

A length of five bytes, the header, and behind it the body if there are bytes left. -/

/-- The bytes of a body that may be absent. -/
def bodyBytes (body : Option WireMap) : Bytes :=
  match body with
  | none => []
  | some m => m.bytes

/-- A reply on the wire. -/
def replyWire (hdr : WireMap) (body : Option WireMap) : Bytes :=
  0xce :: be 4 (hdr.bytes.length + (bodyBytes body).length) ++ (hdr.bytes ++ bodyBytes body)

/-- The span a reply has for a key: that of its last payload, in the string `buf` whose bytes it
delimits. -/
def Finds (buf : Bytes) (base : Nat) (body : Option WireMap) (k : ResponseKey)
    (payload : WirePair → Bytes) (span : Option Span) : Prop :=
  match body with
  | none => span = none
  | some m => match lastPair k.num m.pairs with
    | none => span = none
    | some (pre, w) => ∃ s, span = some s ∧
        s.last = base + (m.head ++ wirePairs (pre ++ [w])).length ∧
        s.first + (payload w).length = s.last ∧
        (buf.drop s.first).take (s.last - s.first) = payload w

omit [Msgpuck] in
/-- A span that ends behind a string it is as long as. -/
theorem span_slice {a payload c : Bytes} {stop : Nat} (hstop : stop = (a ++ payload).length) :
    stop - payload.length + payload.length = stop ∧
      (((a ++ payload) ++ c).drop (stop - payload.length)).take
        (stop - (stop - payload.length)) = payload := by
  have hlen : stop = a.length + payload.length := by rw [hstop, List.length_append]
  have hfirst : stop - payload.length = a.length := by omega
  have hcount : stop - a.length = payload.length := by omega
  refine ⟨by omega, ?_⟩
  rw [hfirst, hcount, List.append_assoc, List.drop_left, List.take_left]

omit [Msgpuck] in
/-- A payload that ends its pair. -/
def EndsPair (payload : WirePair → Bytes) (w : WirePair) : Prop :=
  ∃ front, w.bytes = front ++ payload w

omit [Msgpuck] in
/-- A value ends its pair, ... -/
theorem valBytes_endsPair (w : WirePair) : EndsPair WirePair.valBytes w := ⟨w.keyBytes, rfl⟩

omit [Msgpuck] in
/-- ... and the bytes of a text end its value. -/
theorem textOf_endsPair (w : WirePair) : EndsPair textOf w := by
  unfold EndsPair textOf
  cases hv : w.val with
  | str s =>
    have henc := w.val_encodes
    rw [hv] at henc
    generalize hb : w.valBytes = bs at henc
    cases henc with
    | @str b l _ ds hlead hl =>
      refine ⟨w.keyBytes ++ b :: ds, ?_⟩
      rw [WirePair.bytes, hb]
      simp
  | _ => exact ⟨w.bytes, by simp⟩

omit [Msgpuck] in
/-- The span found in the body, moved to the buffer the body lies in. -/
theorem finds_of_lastSpan {before rest : Bytes} {m : WireMap} {k : ResponseKey}
    {payload : WirePair → Bytes} (hend : ∀ w, EndsPair payload w) :
    Finds (before ++ (m.bytes ++ rest)) before.length (some m) k payload
      ((lastSpan payload m.head.length k m.pairs).map (Span.shift before.length)) := by
  cases hl : lastPair k.num m.pairs with
  | none => simp only [Finds, lastSpan, hl, Option.map_none]
  | some p =>
    obtain ⟨pre, w⟩ := p
    simp only [Finds, lastSpan, hl, Option.map_some]
    obtain ⟨post, hpairs, -, -⟩ := lastPair_eq_some hl
    obtain ⟨front, hfront⟩ := hend w
    -- everything up to the payload, and everything behind it
    set a := before ++ (m.head ++ (wirePairs pre ++ front)) with ha
    have hw : wirePairs [w] = front ++ payload w := by rw [← hfront]; simp [wirePairs]
    have hbuf : before ++ (m.bytes ++ rest) = (a ++ payload w) ++ (wirePairs post ++ rest) := by
      rw [WireMap.bytes, hpairs, wirePairs_append, wirePairs_cons, hfront, ha]
      simp only [List.append_assoc]
    have hstop : before.length + (m.head.length + (wirePairs (pre ++ [w])).length) =
        (a ++ payload w).length := by
      rw [wirePairs_append, hw, ha]
      simp only [List.length_append]
      omega
    have hle : (payload w).length ≤ (wirePairs (pre ++ [w])).length := by
      rw [wirePairs_append, hw]
      simp only [List.length_append]
      omega
    obtain ⟨hsum, hslice⟩ := span_slice (c := wirePairs post ++ rest) hstop
    refine ⟨_, rfl, ?_, ?_, ?_⟩
    · simp only [Span.shift, spanOf, List.length_append]
    · simp only [Span.shift, spanOf]
      omega
    · rw [hbuf]
      simp only [Span.shift, spanOf]
      have hfirst : before.length + (m.head.length + (wirePairs (pre ++ [w])).length -
          (payload w).length) = before.length + (m.head.length +
            (wirePairs (pre ++ [w])).length) - (payload w).length := by omega
      rw [hfirst]
      exact hslice

/-- The length prefix of a complete reply. -/
theorem tntReplyLen_spec (package : Bytes) (hlen : package.length < 2 ^ 32) (rest : Bytes) :
    tntReplyLen (0xce :: be 4 package.length ++ (package ++ rest)) =
      .ok (0, 5 + package.length) := by
  have htype := expectType_five (package ++ rest) hlen
  have hdec := decodeUintAt_five (package ++ rest) hlen
  have hsize : ¬ (0xce :: be 4 package.length ++ (package ++ rest)).length < iprotoHdrSize := by
    simp only [List.length_append, List.length_cons, be_length, iprotoHdrSize]
    omega
  have hmod : (package.length + iprotoHdrSize) % 2 ^ 64 = 5 + package.length := by
    rw [iprotoHdrSize, Nat.mod_eq_of_lt (by omega)]
    omega
  have hfull : ¬ (0xce :: be 4 package.length ++ (package ++ rest)).length <
      5 + package.length := by
    simp only [List.length_append, List.length_cons, be_length]
    omega
  rw [tntReplyLen, if_neg hsize]
  simp only [htype, hdec, Outcome.ok_bind, hmod, if_neg hfull]

/-- **`tnt_reply0` on a complete reply**: the header and the body parser on the announced bytes,
whatever follows them.  From here on the prefix is out of the way: offsets into the package are
moved by five. -/
theorem tntReply0_frame (r : TntReply) (package : Bytes) (hlen : package.length < 2 ^ 32)
    (rest : Bytes) :
    tntReply0 r (0xce :: be 4 package.length ++ (package ++ rest)) =
      match tntReplyHdr0 package with
      | .undef => none
      | .fail => some (-1, r, none)
      | .ok (h, hdrLength) =>
        if package.length ≠ hdrLength then
          match tntReplyBody0 (package.drop hdrLength) with
          | .undef => none
          | .fail => some (-1, r.setHdr h, none)
          | .ok (b, _) =>
            some (0, (r.setHdr h).setBody (iprotoHdrSize + hdrLength) b, some (5 + package.length))
        else some (0, r.setHdr h, some (5 + package.length)) := by
  have hl := tntReplyLen_spec package hlen rest
  have hdata : ((0xce :: be 4 package.length ++ (package ++ rest)).drop iprotoHdrSize).take
      (5 + package.length - iprotoHdrSize) = package := by
    have hfive : (0xce :: be 4 package.length).length = iprotoHdrSize := by simp [iprotoHdrSize]
    have hsub : 5 + package.length - iprotoHdrSize = package.length := by
      rw [iprotoHdrSize]
      omega
    rw [← hfive, List.drop_left, hfive, hsub, List.take_left]
  have hge : ¬ 5 + package.length < iprotoHdrSize := by
    rw [iprotoHdrSize]
    omega
  unfold tntReply0
  simp only [hl, hdata, show ¬ ((0 : Int) = 1) by decide, if_false, if_neg hge]

/-- **What a reply tells**: the last number of every header key, and for every body key the span of
its last payload in `buf`, where the body starts at `base`. -/
structure TntReply.Tells (r : TntReply) (buf : Bytes) (base : Nat) (hdr : WireMap)
    (body : Option WireMap) : Prop where
  sync : r.sync = lastNum .sync hdr.pairs
  schemaId : r.schemaId = lastNum .schemaId hdr.pairs
  code : r.code = lastNum .code hdr.pairs % 2 ^ 15
  error : Finds buf base body .error textOf r.error
  data : Finds buf base body .data WirePair.valBytes r.data
  metadata : Finds buf base body .metadata WirePair.valBytes r.metadata
  sqlinfo : Finds buf base body .sqlInfo WirePair.valBytes r.sqlinfo

omit [Msgpuck] in
/-- A reply without a body tells what the header shows. -/
theorem tells_of_hdr {r : TntReply} {h : Hdr} {hdr : WireMap} (hh : h.Shows hdr.pairs)
    (he : r.error = none) (hd : r.data = none) (hm : r.metadata = none) (hs : r.sqlinfo = none)
    (buf : Bytes) (base : Nat) : (r.setHdr h).Tells buf base hdr none := by
  obtain ⟨hsync, hcode, hschema⟩ := hh
  refine ⟨hsync, hschema, ?_, he, hd, hm, hs⟩
  show h.code % 2 ^ 15 = _
  rw [hcode]

omit [Msgpuck] in
/-- A reply with a body tells what both show. -/
theorem tells_of_body {h : Hdr} {b : Body} {hdr m : WireMap} (hh : h.Shows hdr.pairs)
    (hb : b.Shows m.head.length m.pairs) (r : TntReply) (before rest : Bytes) :
    ((r.setHdr h).setBody before.length b).Tells (before ++ (m.bytes ++ rest)) before.length hdr
      (some m) := by
  obtain ⟨hsync, hcode, hschema⟩ := hh
  refine ⟨hsync, hschema, ?_, ?_, ?_, ?_, ?_⟩
  · show h.code % 2 ^ 15 = _
    rw [hcode]
  · show Finds _ _ _ _ _ (b.error.map (Span.shift before.length))
    rw [hb.error]
    exact finds_of_lastSpan textOf_endsPair
  · show Finds _ _ _ _ _ (b.data.map (Span.shift before.length))
    rw [hb.data]
    exact finds_of_lastSpan valBytes_endsPair
  · show Finds _ _ _ _ _ (b.metadata.map (Span.shift before.length))
    rw [hb.metadata]
    exact finds_of_lastSpan valBytes_endsPair
  · show Finds _ _ _ _ _ (b.sqlinfo.map (Span.shift before.length))
    rw [hb.sqlinfo]
    exact finds_of_lastSpan valBytes_endsPair

/-- The header and the body of a reply of the format. -/
structure WellFormed (hdr : WireMap) (body : Option WireMap) : Prop where
  hdr : ∀ w ∈ hdr.pairs, HeaderPair w
  body : ∀ m, body = some m → ∀ w ∈ m.pairs, BodyPair w

/-- **The reply parser is correct**, on every reply of the format, with anything behind it in the
buffer.  Keys come in any order, in any of the widths the format has for a number, and may come more
than once, when the last one counts.  The loop over the pairs is a fold over them, `Hdr.record` and
`Body.turn`, and what is read off the folds is the last pair with a key. -/
theorem tntReply0_spec {hdr : WireMap} {body : Option WireMap} (hwf : WellFormed hdr body)
    (hlen : hdr.bytes.length + (bodyBytes body).length < 2 ^ 32) (rest : Bytes) :
    ∃ r, tntReply0 zeroReply (replyWire hdr body ++ rest) =
        some (0, r, some (5 + (hdr.bytes.length + (bodyBytes body).length))) ∧
      r.Tells (replyWire hdr body ++ rest) (5 + hdr.bytes.length) hdr body := by
  set package := hdr.bytes ++ bodyBytes body with hpackage
  have hplen : package.length = hdr.bytes.length + (bodyBytes body).length := List.length_append
  have hwire : replyWire hdr body ++ rest =
      0xce :: be 4 package.length ++ (package ++ rest) := by
    rw [replyWire, ← hpackage, hplen, List.append_assoc]
  obtain ⟨h, hhdr0, hshows⟩ := tntReplyHdr0_spec hwf.hdr (bodyBytes body)
  rw [← hpackage] at hhdr0
  rw [hwire, ← hplen, tntReply0_frame zeroReply package (by omega) rest]
  simp only [hhdr0]
  cases body with
  | none =>
    have hsame : package.length = hdr.bytes.length := hplen
    simp only [hsame, ne_eq, not_true_eq_false, if_false]
    exact ⟨_, rfl, tells_of_hdr hshows rfl rfl rfl rfl _ _⟩
  | some m =>
    have hdiff : package.length ≠ hdr.bytes.length := by
      have := m.encodes.length_pos
      rw [hplen]
      show hdr.bytes.length + m.bytes.length ≠ hdr.bytes.length
      omega
    obtain ⟨b, hbody0, hshowsb⟩ := tntReplyBody0_spec (hwf.body m rfl)
    have hdrop : package.drop hdr.bytes.length = m.bytes := by
      rw [hpackage, List.drop_left]
      rfl
    simp only [hdrop, hbody0, ne_eq, hdiff, not_false_eq_true, if_true]
    -- the body lies behind the prefix and the header
    set before := 0xce :: be 4 package.length ++ hdr.bytes with hbefore
    have hmem : 0xce :: be 4 package.length ++ (package ++ rest) = before ++ (m.bytes ++ rest) := by
      rw [hbefore, hpackage]
      simp only [List.append_assoc]
      rfl
    have hbase : 5 + hdr.bytes.length = before.length := by
      rw [hbefore]
      simp
      omega
    rw [hmem, iprotoHdrSize, hbase]
    exact ⟨_, rfl, tells_of_body hshows hshowsb _ _ _⟩

/-- The announced bytes, in a buffer of the reply's own. -/
theorem parseOwned_spec {hdr : WireMap} {body : Option WireMap} (hwf : WellFormed hdr body) :
    ∃ r, parseOwned (hdr.bytes ++ bodyBytes body) = .ok r ∧
      r.buf = some (hdr.bytes ++ bodyBytes body) ∧
      r.Tells (hdr.bytes ++ bodyBytes body) hdr.bytes.length hdr body := by
  obtain ⟨h, hhdr0, hshows⟩ := tntReplyHdr0_spec hwf.hdr (bodyBytes body)
  cases body with
  | none =>
    have hsame : (hdr.bytes ++ bodyBytes none).length = hdr.bytes.length := by simp [bodyBytes]
    have htells := @tells_of_hdr { zeroReply with buf := some (hdr.bytes ++ bodyBytes none) } h hdr
      hshows rfl rfl rfl rfl (hdr.bytes ++ bodyBytes none) hdr.bytes.length
    refine ⟨_, ?_, ?_, htells⟩
    · simp only [parseOwned, hhdr0, Outcome.ok_bind, if_pos hsame]
    · rfl
  | some m =>
    obtain ⟨b, hbody0, hshowsb⟩ := tntReplyBody0_spec (hwf.body m rfl)
    have hdiff : (hdr.bytes ++ bodyBytes (some m)).length ≠ hdr.bytes.length := by
      have hpos := m.encodes.length_pos
      show (hdr.bytes ++ m.bytes).length ≠ hdr.bytes.length
      rw [List.length_append]
      omega
    have hdrop : (hdr.bytes ++ bodyBytes (some m)).drop hdr.bytes.length = m.bytes :=
      List.drop_left
    have htells := tells_of_body hshows hshowsb
      { zeroReply with buf := some (hdr.bytes ++ m.bytes) } hdr.bytes []
    rw [List.append_nil] at htells
    refine ⟨_, ?_, ?_, htells⟩
    · simp only [parseOwned, hhdr0, Outcome.ok_bind, if_neg hdiff, hdrop, hbody0]
      rfl
    · rfl

/-- **`tnt_reply_from`** on a receive function that delivers a reply of the format.  It asks for
five bytes first, and then for as many as they announce. -/
theorem tntReplyFrom_spec {σ : Type} {alloc : Nat → Bool} (halloc : ∀ n, alloc n = true)
    {rcv : σ → Nat → Option (Int × Bytes × σ)} {s s₁ s₂ : σ} {hdr : WireMap}
    {body : Option WireMap} (hwf : WellFormed hdr body) {n : Nat}
    (hn : n = hdr.bytes.length + (bodyBytes body).length) (hlen : n < 2 ^ 32)
    (hfirst : rcv s iprotoHdrSize = some ((5 : Int), 0xce :: be 4 n, s₁))
    (hrest : rcv s₁ n = some ((n : Int), hdr.bytes ++ bodyBytes body, s₂)) :
    ∃ r, tntReplyFrom alloc rcv s = some (0, r, s₂) ∧ r.buf = some (hdr.bytes ++ bodyBytes body) ∧
      r.Tells (hdr.bytes ++ bodyBytes body) hdr.bytes.length hdr body := by
  obtain ⟨r, hparse, hbuf, htells⟩ := parseOwned_spec hwf
  have htype := expectType_five [] hlen
  have hdec := decodeUintAt_five [] hlen
  rw [List.append_nil] at htype hdec
  have hfull : ¬ (hdr.bytes ++ bodyBytes body).length ≠ n := by
    rw [List.length_append, hn]
    simp
  have hrc : ¬ (n : Int) = -1 := by omega
  refine ⟨r, ?_, hbuf, htells⟩
  simp only [tntReplyFrom, hfirst, bind, Option.bind_some, show ¬ (5 : Int) = -1 by decide, if_false,
    htype, hdec, halloc, Bool.not_true, Bool.false_eq_true, hrest, hrc, if_neg hfull, hparse, pure]

/-- **How `tnt_reply_from` ends**, on any receive function: cleared and with -1, or after two
receives that did not fail, with the second one's bytes parsed.  Nothing is assumed of what the
receive function delivers. -/
theorem tntReplyFrom_cases {σ : Type} {alloc : Nat → Bool}
    {rcv : σ → Nat → Option (Int × Bytes × σ)} {s s' : σ} {rc : Int} {r : TntReply}
    (h : tntReplyFrom alloc rcv s = some (rc, r, s')) :
    ∃ rc₁ length s₁, rcv s iprotoHdrSize = some (rc₁, length, s₁) ∧
      ((rc = -1 ∧ r = zeroReply ∧
          (s' = s₁ ∨ ∃ size rc₂ buf, rcv s₁ size = some (rc₂, buf, s'))) ∨
        (rc = 0 ∧ rc₁ ≠ -1 ∧ ∃ size q rc₂ buf,
          (do expectType length 0 .uint; decodeUintAt length 0 : Outcome (Nat × Nat)) =
            .ok (size, q) ∧
          rcv s₁ size = some (rc₂, buf, s') ∧ rc₂ ≠ -1 ∧ parseOwned buf = .ok r)) := by
  cases hfirst : rcv s iprotoHdrSize with
  | none => simp [tntReplyFrom, hfirst] at h
  | some p =>
    obtain ⟨rc₁, length, s₁⟩ := p
    refine ⟨rc₁, length, s₁, rfl, ?_⟩
    simp only [tntReplyFrom, hfirst, Option.bind_eq_bind, Option.bind_some, pure] at h
    split_ifs at h with hrc₁
    · cases h
      exact Or.inl ⟨rfl, rfl, Or.inl rfl⟩
    split at h
    · exact absurd h (by simp)
    · cases h
      exact Or.inl ⟨rfl, rfl, Or.inl rfl⟩
    -- the length is there, and memory for so many bytes is asked for
    next size q hsize =>
    split_ifs at h with halloc
    · cases h
      exact Or.inl ⟨rfl, rfl, Or.inl rfl⟩
    cases hsecond : rcv s₁ size with
    | none => simp [hsecond] at h
    | some p =>
      obtain ⟨rc₂, buf, s₂⟩ := p
      simp only [hsecond, Option.bind_some] at h
      split_ifs at h with hrc₂ hfull
      · cases h
        exact Or.inl ⟨rfl, rfl, Or.inr ⟨size, rc₂, buf, hsecond⟩⟩
      · exact absurd h (by simp)
      split at h
      · exact absurd h (by simp)
      · cases h
        exact Or.inl ⟨rfl, rfl, Or.inr ⟨size, rc₂, buf, hsecond⟩⟩
      · next r' hparse =>
        cases h
        exact Or.inr ⟨rfl, hrc₁, size, q, rc₂, buf, hsize, hsecond, hrc₂, hparse⟩

end Spec

/-! An error reply, with a byte of the next reply behind it. -/

/-- The numbers of the example can be written. -/
theorem sync_fits : (Value.uint 7).Fits := by
  simp [Value.Fits]

/-- `{TNT_SYNC: 7, TNT_CODE: 0x8001}`. -/
def errorHdr : WireMap :=
  .packed [.packed 1 (.uint 7) (HeaderKey.num_lt .sync) sync_fits,
    .packed 0 (.uint 0x8001) (HeaderKey.num_lt .code) (by simp [Value.Fits])] (by decide)

/-- `{TNT_ERROR: "no"}`. -/
def errorBody : WireMap :=
  .packed [.packed 0x31 (.str [0x6e, 0x6f]) (ResponseKey.num_lt .error) (by simp [Value.Fits])]
    (by decide)

/-- It is a reply of the format. -/
theorem errorReply_wellFormed : WellFormed errorHdr (some errorBody) where
  hdr w hw := by
    rcases List.mem_cons.mp hw with rfl | hw
    · exact ⟨Or.inr (Or.inl rfl), 7, rfl⟩
    · rw [List.mem_singleton.mp hw]
      exact ⟨Or.inl rfl, 0x8001, rfl⟩
  body m hm w hw := by
    cases hm
    rw [List.mem_singleton.mp hw]
    exact ⟨by decide, fun _ => rfl, by decide, by decide, by decide⟩

/-- It is short. -/
theorem errorReply_length :
    errorHdr.bytes.length + (bodyBytes (some errorBody)).length < 2 ^ 32 := by
  decide

/-- What the parser makes of it: the sync, the code without its upper bit, the text. -/
theorem tntReply0_error_reply :
    ∃ r, @tntReply0 Msgpuck.reference zeroReply [0xce, 0, 0, 0, 0x0c,
        0x82, 0x01, 0x07, 0x00, 0xcd, 0x80, 0x01, 0x81, 0x31, 0xa2, 0x6e, 0x6f, 0xce] =
          some (0, r, some 17) ∧
      r.sync = 7 ∧ r.code = 1 ∧ r.error = some ⟨15, 17⟩ ∧ r.data = none := by
  obtain ⟨r, hr, htells⟩ := @tntReply0_spec Msgpuck.reference _ _ errorReply_wellFormed
    (by decide) [0xce]
  obtain ⟨s, hs, hlast, hfirst, -⟩ := htells.error
  have hlast' : s.last = 17 := hlast
  have hfirst' : s.first + 2 = s.last := hfirst
  refine ⟨r, hr, htells.sync, htells.code, ?_, htells.data⟩
  rw [hs, show s = ⟨15, 17⟩ from ?_]
  cases s
  simp only [Span.mk.injEq] at *
  omega

end TarantoolC.Reply
