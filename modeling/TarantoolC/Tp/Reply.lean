/-
# TarantoolC.Tp.Reply — the reply parser of `tp.h`, beside that of `libtnt`.

`tp_reply` and `tnt_reply0` read the same replies, and were written apart.  `tp_reply` checks the
header and the body against the end of the BUFFER, not of the message; it skips header keys that it
does not know, where `tnt_reply_hdr0` gives up; it stores what it finds as it goes; and what it
returns is how far it got.  On a complete reply of the format, with anything behind it, none of this
shows: the loops are followed side by side here (`HeadersAgree`, `BodiesAgree`), pair by pair.

What a call that returns -1 has stored by then is left out (`Outcome.fail`).

## The bitmaps

Both parsers note a key with `bitmap |= (1ULL << key)`.  In C this is undefined for a key of 64 or
more; in the two models such a key makes the bitmap `none` and the parse goes on.  So the theorems
here say of a reply with a large key what the rest of the response is, under the assumption that the
shift does no harm beyond the bitmap, and they ask for keys below 64 where the bitmap is compared
(`ResponsePair`).  Where definedness itself is the matter, the key is a condition: see
`TarantoolC.Reply.Keys`.
-/
import TarantoolC.Reply
import TarantoolC.Tp.Writer

namespace TarantoolC.Tp

open MsgPack Msgpuck Reply

/-! ## §1 — `tp_reply`.

Pointers into the response are offsets into the buffer.  The two loops are over the number of pairs
that the map announces, and what they store is kept turn by turn, as the source does. -/

/-- `enum tp_response_key_t`. -/
inductive ResponseKey where
  | data | error
  deriving Repr, DecidableEq

def ResponseKey.num : ResponseKey → Nat
  | .data => 0x30
  | .error => 0x31

/-- `struct tp_array_itr`; pointers are offsets into the buffer of the response. -/
structure ArrayItr where
  data : Option Nat
  firstElem : Option Nat
  elem : Option Nat
  elemEnd : Option Nat
  elemCount : Nat
  curIndex : Int
  deriving Repr, DecidableEq

/-- `memset(itr, 0, …)`. -/
def zeroItr : ArrayItr := ⟨none, none, none, none, 0, 0⟩

/-- `struct tpresponse`; `bitmap` is `none` once a shift by 64 or more has made it undefined.  The
field `buf` is never set. -/
structure TpResponse where
  bitmap : Option UInt64
  code : Nat
  sync : Nat
  error : Option Span
  data : Option Span
  tupleItr : ArrayItr
  fieldItr : ArrayItr
  deriving Repr, DecidableEq

/-- `memset(r, 0, …)`. -/
def zeroResponse : TpResponse where
  bitmap := some 0
  code := 0
  sync := 0
  error := none
  data := none
  tupleItr := zeroItr
  fieldItr := zeroItr

section Parser

variable [Msgpuck]

/-- `tp_array_itr_init`. -/
def tpArrayItrInit (buf : Bytes) (data size : Nat) : Outcome ArrayItr :=
  if size = 0 then .fail
  else do
    expectType buf data .array
    match mpCheck ((buf.drop data).take size) with
    | none => .fail
    | some _ =>
      let (n, p) ← decodeArrayAt buf data
      return { zeroItr with data := some data, firstElem := some p, elemCount := n, curIndex := -1 }

/-- One turn of the first loop of `tp_reply`, behind the key.  Keys that are not known are skipped,
and have their bit set all the same. -/
def headerStep (buf : Bytes) (key p : Nat) (r : TpResponse) : Outcome (TpResponse × Nat) :=
  if key = HeaderKey.sync.num.toNat then do
    expectType buf p .uint
    let (v, p) ← decodeUintAt buf p
    return ({ r with sync := v }, p)
  else if key = HeaderKey.code.num.toNat then do
    expectType buf p .uint
    let (v, p) ← decodeUintAt buf p
    return ({ r with code := v % 2 ^ 32 }, p)
  else do
    let p ← nextAt buf p
    return (r, p)

/-- The loop over the header; the key is a `uint32_t`.  As in `tnt_reply_hdr0`, each pair is a key
and a value behind it. -/
def headerLoop (buf : Bytes) : Nat → Nat → TpResponse → Outcome (TpResponse × Nat)
  | 0, p, r => .ok (r, p)
  | n + 1, p, r => do
    expectType buf p .uint
    let (num, p) ← decodeUintAt buf p
    let key := num % 2 ^ 32
    expectType buf p .uint
    let (r, p) ← headerStep buf key p r
    headerLoop buf n p { r with bitmap := setBit r.bitmap key }

/-- One turn of the second loop, behind the key.  Error and data are kept as pointers, and
everything else is skipped. -/
def responseStep (buf : Bytes) (key p : Nat) (r : TpResponse) : Outcome (TpResponse × Nat) :=
  if key = ResponseKey.error.num then do
    expectType buf p .str
    let (first, p) ← decodeStrAt buf p
    return ({ r with error := some ⟨first, p⟩ }, p)
  else if key = ResponseKey.data.num then do
    expectType buf p .array
    let q ← nextAt buf p
    return ({ r with data := some ⟨p, q⟩ }, q)
  else do
    let p ← nextAt buf p
    return (r, p)

/-- The loop over the body; the type of the key is not looked at.  It is cut to 32 bits like a key
of the header. -/
def responseLoop (buf : Bytes) : Nat → Nat → TpResponse → Outcome (TpResponse × Nat)
  | 0, p, r => .ok (r, p)
  | n + 1, p, r => do
    let (num, p) ← decodeUintAt buf p
    let key := num % 2 ^ 32
    let (r, p) ← responseStep buf key p r
    responseLoop buf n p { r with bitmap := setBit r.bitmap key }

/-- `mp_check(&test, buf + size)` and `mp_typeof(*p) != MP_MAP`, then `mp_decode_map`. -/
def openMap (buf : Bytes) (p : Nat) : Outcome (Nat × Nat) :=
  match mpCheck (buf.drop p) with
  | none => .fail
  | some _ => do
    expectType buf p .map
    decodeMapAt buf p

/-- The end of `tp_reply`: the iterator over the data, and how far it got. -/
def finish (buf : Bytes) (r : TpResponse) (p : Nat) : Outcome (Nat × TpResponse) :=
  match r.data with
  | none => .ok (p, r)
  | some data => do
    let itr ← tpArrayItrInit buf data.first (data.last - data.first)
    return (p, { r with tupleItr := itr })

/-- `tp_reply` behind the header, where there is a body. -/
def afterHeader (buf : Bytes) (r : TpResponse) (p : Nat) : Outcome (Nat × TpResponse) := do
  let (n, p) ← openMap buf p
  let (r, p) ← responseLoop buf n p r
  finish buf r p

/-- `tp_reply`: its result and the response.  `len` and the sum it is compared in are `uint32_t`.
The check of the length can be passed by a message that is longer than the buffer, if the sum wraps
around. -/
def tpReply (buf : Bytes) : Outcome (Nat × TpResponse) :=
  if buf.length = 0 then .ok (0, zeroResponse)
  else
    match mpCheck buf with
    | none => .fail
    | some _ => do
      expectType buf 0 .uint
      let (num, p) ← decodeUintAt buf 0
      let len := num % 2 ^ 32
      if buf.length < (len + p) % 2 ^ 32 then return (0, zeroResponse)
      let (n, p) ← openMap buf p
      let (r, p) ← headerLoop buf n p zeroResponse
      if p = len + 5 then return ((len + 5) % 2 ^ 32, r)
      afterHeader buf r p

end Parser

/-! ## §2 — the headers, side by side.

Both parsers are folds over the pairs, with different records.  `HeadersAgree` relates the records;
a pair that one of them does not know changes neither. -/

/-- What a pair of the header changes. -/
def TpResponse.recordHeader (r : TpResponse) (w : WirePair) : TpResponse :=
  let r :=
    if w.key = HeaderKey.sync.num.toNat then { r with sync := numOf w }
    else if w.key = HeaderKey.code.num.toNat then { r with code := numOf w % 2 ^ 32 }
    else r
  { r with bitmap := setBit r.bitmap w.key }

/-- The two parsers behind the same pairs of the header.  The code is cut to 32 bits by one of them.
Nothing else differs, and the body has not been looked at yet. -/
structure HeadersAgree (h : Hdr) (r : TpResponse) : Prop where
  sync : r.sync = h.sync
  code : r.code = h.code % 2 ^ 32
  bitmap : r.bitmap = h.bitmap
  defined : ∃ x, h.bitmap = some x
  error : r.error = none
  data : r.data = none

/-- A bit below 64 can be set. -/
theorem setBit_defined {x : Option UInt64} (hx : ∃ y, x = some y) {key : Nat} (hkey : key < 64) :
    ∃ y, setBit x key = some y := by
  obtain ⟨y, rfl⟩ := hx
  exact ⟨_, by rw [setBit, if_pos hkey]; rfl⟩

/-- One pair of the header, ... -/
theorem HeadersAgree.record {h : Hdr} {r : TpResponse} (hagree : HeadersAgree h r) {w : WirePair}
    (hw : HeaderPair w) : HeadersAgree (h.record w) (r.recordHeader w) := by
  obtain ⟨hsync, hcode, hbitmap, hdefined, herror, hdata⟩ := hagree
  have hbit : setBit r.bitmap w.key = setBit h.bitmap w.key := by rw [hbitmap]
  have hdef : w.key < 64 → ∃ y, setBit h.bitmap w.key = some y := setBit_defined hdefined
  rw [Hdr.record, hw.key_lt, TpResponse.recordHeader]
  rcases hw.1 with hk | hk | hk
  · rw [hk] at hbit hdef ⊢
    exact ⟨hsync, rfl, hbit, hdef (by decide), herror, hdata⟩
  · rw [hk] at hbit hdef ⊢
    exact ⟨rfl, hcode, hbit, hdef (by decide), herror, hdata⟩
  · rw [hk] at hbit hdef ⊢
    exact ⟨hsync, hcode, hbit, hdef (by decide), herror, hdata⟩

/-- ... and all of them, noted by both. -/
theorem HeadersAgree.fold {h : Hdr} {r : TpResponse} (hagree : HeadersAgree h r)
    {todo : List WirePair} (hw : ∀ w ∈ todo, HeaderPair w) :
    HeadersAgree (todo.foldl Hdr.record h) (todo.foldl TpResponse.recordHeader r) := by
  induction todo generalizing h r with
  | nil => exact hagree
  | cons w todo ih => exact ih (hagree.record (hw w (by simp))) (fun x hx => hw x (by simp [hx]))

section Spec

variable [Msgpuck]

/-- One pair of the header.  The key is decoded, its value is decoded or skipped, and the next turn
starts behind it. -/
theorem headerLoop_step (pre rest : Bytes) {w : WirePair} (hw : HeaderPair w) (n : Nat)
    (r : TpResponse) :
    headerLoop (pre ++ (w.bytes ++ rest)) (n + 1) pre.length r =
      headerLoop (pre ++ (w.bytes ++ rest)) n (pre ++ w.bytes).length (r.recordHeader w) := by
  obtain ⟨num, hnum⟩ := hw.2
  have hnumOf : numOf w = num := by rw [numOf, hnum]
  have hnext := w.nextAt_val pre rest
  have htype := w.expectType_key pre rest
  have hdec := w.decodeUintAt_key pre rest
  have htype' : expectType (pre ++ (w.bytes ++ rest)) (pre ++ w.keyBytes).length .uint = .ok () :=
    w.expectType_val pre rest (by rw [hnum]; rfl)
  have hdec' := w.decodeUintAt_val pre rest hnum
  rw [TpResponse.recordHeader, hnumOf]
  simp only [headerLoop, htype, hdec, Outcome.ok_bind, htype', hw.key_lt, headerStep]
  split_ifs with hsync hcode
  · simp only [hdec', Outcome.ok_bind, Outcome.pure_eq]
  · simp only [hdec', Outcome.ok_bind, Outcome.pure_eq]
  · simp only [hnext, Outcome.ok_bind, Outcome.pure_eq]

/-- The loop of `tp_reply` over the header notes its pairs one by one.  An induction on the pairs,
one turn each. -/
theorem headerLoop_fold (pre rest : Bytes) {todo : List WirePair} (hw : ∀ w ∈ todo, HeaderPair w)
    (r : TpResponse) :
    headerLoop (pre ++ (wirePairs todo ++ rest)) todo.length pre.length r =
      .ok (todo.foldl TpResponse.recordHeader r, (pre ++ wirePairs todo).length) := by
  induction todo generalizing pre r with
  | nil => simp [headerLoop, wirePairs]
  | cons w todo ih =>
    have hstep := headerLoop_step pre (wirePairs todo ++ rest) (hw w (by simp)) todo.length r
    have hrest := ih (pre ++ w.bytes) (fun x hx => hw x (by simp [hx])) (r.recordHeader w)
    rw [wirePairs_cons, List.append_assoc, List.length_cons, hstep, ← List.append_assoc pre, hrest,
      List.append_assoc, List.foldl_cons]

/-- A map that stands complete in the buffer is opened. -/
theorem openMap_front (m : WireMap) (pre rest : Bytes) :
    openMap (pre ++ (m.bytes ++ rest)) pre.length =
      .ok (m.pairs.length, (pre ++ m.head).length) := by
  have hcheck := mpCheck_front m.encodes rest
  have htype : expectType (pre ++ (m.bytes ++ rest)) pre.length .map = .ok () :=
    expectType_front pre rest m.encodes
  have hmap := m.decodeMapAt_front pre (wirePairs m.pairs ++ rest)
  rw [← List.append_assoc m.head] at hmap
  rw [openMap, List.drop_left, hcheck]
  simp only [htype, Outcome.ok_bind]
  exact hmap

/-! ## §3 — the bodies, side by side.

The same, with positions: `tnt_reply_body0` has only the body and `tp_reply` the buffer around it,
so that places differ by the start of the body. -/

/-- A pair of a body, for both parsers. -/
structure ResponsePair (w : WirePair) : Prop where
  key_lt : w.key < 64
  error : w.key = Proto.ResponseKey.error.num → w.val.ty = .str
  data : w.key = Proto.ResponseKey.data.num → w.val.ty = .array
  metadata : w.key = Proto.ResponseKey.metadata.num → w.val.ty = .array

omit [Msgpuck] in
/-- What `tp_reply` asks of a pair is more than `tnt_reply_body0` does.  So what is known of the
other parser can be used under the same hypothesis. -/
theorem ResponsePair.body {w : WirePair} (h : ResponsePair w) : BodyPair w where
  key_lt := Nat.lt_trans h.key_lt (by decide)
  error := h.error
  data := h.data
  metadata := h.metadata
  sqlInfo hkey := by
    -- `TNT_SQL_INFO` is 0x42
    have hlt := h.key_lt
    rw [hkey] at hlt
    exact absurd hlt (by decide)

/-- What a pair that ends at `stop` changes in the response, with its bit. -/
def TpResponse.turn (r : TpResponse) (w : WirePair) (stop : Nat) : TpResponse :=
  let r :=
    if w.key = ResponseKey.error.num then
      { r with error := some ⟨stop - (textOf w).length, stop⟩ }
    else if w.key = ResponseKey.data.num then
      { r with data := some ⟨stop - w.valBytes.length, stop⟩ }
    else r
  { r with bitmap := setBit r.bitmap w.key }

/-- One pair of the body.  By the key of the pair; the two parsers have the same cases here. -/
theorem responseLoop_step (pre rest : Bytes) {w : WirePair} (hw : BodyPair w) (n : Nat)
    (r : TpResponse) :
    responseLoop (pre ++ (w.bytes ++ rest)) (n + 1) pre.length r =
      responseLoop (pre ++ (w.bytes ++ rest)) n (pre ++ w.bytes).length
        (r.turn w (pre ++ w.bytes).length) := by
  have hnext := w.nextAt_val pre rest
  have hstart := w.val_start pre
  have hdec := w.decodeUintAt_key pre rest
  have hmod : w.key % 2 ^ 32 = w.key := Nat.mod_eq_of_lt hw.key_lt
  rw [TpResponse.turn]
  simp only [responseLoop, hdec, Outcome.ok_bind, hmod, responseStep]
  split_ifs with herror hdata
  · have hty := hw.error herror
    obtain ⟨s, hs⟩ := Value.eq_str_of_ty hty
    have htext : textOf w = s := by rw [textOf, hs]
    simp only [w.expectType_val pre rest hty, w.decodeStrAt_val pre rest hs, htext, Outcome.ok_bind,
      Outcome.pure_eq]
  · simp only [w.expectType_val pre rest (hw.data hdata), hnext, hstart, Outcome.ok_bind,
      Outcome.pure_eq]
  · simp only [hnext, Outcome.ok_bind, Outcome.pure_eq]

/-- The two parsers behind the same pairs of the body, which starts at `base` in the buffer; `start`
is what the header has left. -/
structure BodiesAgree (base : Nat) (start : TpResponse) (b : Body) (r : TpResponse) : Prop where
  sync : r.sync = start.sync
  code : r.code = start.code
  bitmap : r.bitmap = start.bitmap.bind fun x => b.bitmap.map (x ||| ·)
  defined : ∃ x, b.bitmap = some x
  error : r.error = b.error.map (Span.shift base)
  data : r.data = b.data.map (Span.shift base)

omit [Msgpuck] in
/-- The bits of header and body are put together, in whatever order.  One parser has a bitmap for
each of them and joins these at the end, the other one has a single bitmap from the start. -/
theorem setBit_or (x y : Option UInt64) (key : Nat) :
    setBit (x.bind fun x => y.map (x ||| ·)) key =
      x.bind fun x => (setBit y key).map (x ||| ·) := by
  unfold setBit
  split_ifs with hlt
  · cases x with
    | none => rfl
    | some x =>
      cases y with
      | none => rfl
      | some y => simp only [Option.bind_some, Option.map_some, UInt64.or_assoc]
  · cases x <;> rfl

omit [Msgpuck] in
/-- A span in the body, and the same span in the buffer. -/
theorem shift_span {base stop n : Nat} (h : n ≤ stop) :
    (⟨base + stop - n, base + stop⟩ : Span) = Span.shift base ⟨stop - n, stop⟩ := by
  simp only [Span.shift, Span.mk.injEq, and_true]
  omega

omit [Msgpuck] in
/-- One pair of the body, for both.  Pointers on one side are offsets on the other, `base` apart. -/
theorem BodiesAgree.turn {base : Nat} {start : TpResponse} {b : Body} {r : TpResponse}
    (hagree : BodiesAgree base start b r) {w : WirePair} (hw : ResponsePair w) {stop : Nat}
    (hstop : w.bytes.length ≤ stop) :
    BodiesAgree base start (b.turn w stop) (r.turn w (base + stop)) := by
  obtain ⟨hsync, hcode, hbitmap, hdefined, herror, hdata⟩ := hagree
  have hdef := setBit_defined hdefined hw.key_lt
  have hbit : setBit r.bitmap w.key =
      start.bitmap.bind fun x => (setBit b.bitmap w.key).map (x ||| ·) := by
    rw [hbitmap, setBit_or]
  have hval : w.valBytes.length ≤ stop := by
    rw [WirePair.bytes, List.length_append] at hstop
    omega
  have htext : (textOf w).length ≤ stop := by
    obtain ⟨front, hfront⟩ := textOf_endsPair w
    rw [hfront, List.length_append] at hstop
    omega
  have hkeys : Proto.ResponseKey.error.num = ResponseKey.error.num ∧
      Proto.ResponseKey.data.num = ResponseKey.data.num := ⟨rfl, rfl⟩
  rw [Body.turn, TpResponse.turn, Body.record, hkeys.1, hkeys.2]
  split_ifs with k1 k2 k3 k4
  · exact ⟨hsync, hcode, hbit, hdef, congrArg some (shift_span htext), hdata⟩
  · exact ⟨hsync, hcode, hbit, hdef, herror, congrArg some (shift_span hval)⟩
  · exact ⟨hsync, hcode, hbit, hdef, herror, hdata⟩
  · exact ⟨hsync, hcode, hbit, hdef, herror, hdata⟩
  · exact ⟨hsync, hcode, hbit, hdef, herror, hdata⟩

/-- **The loops over the body**, one in the body alone, one in the buffer around it: what their
turns keep, they keep.  A relation between the two states is kept by a turn of both, so it is kept
by the loops.  Nothing is said here of what the relation is. -/
theorem loops_keep (P : Body → TpResponse → Prop) (before pre rest rest' : Bytes)
    {todo : List WirePair} (hw : ∀ w ∈ todo, BodyPair w)
    (hturn : ∀ w ∈ todo, ∀ b r stop, w.bytes.length ≤ stop → P b r →
      P (b.turn w stop) (r.turn w (before.length + stop)))
    {b : Body} {r : TpResponse} (h : P b r) :
    ∃ b' r',
      bodyLoop (pre ++ (wirePairs todo ++ rest)) todo.length pre.length b =
        .ok (b', (pre ++ wirePairs todo).length) ∧
      responseLoop (before ++ (pre ++ (wirePairs todo ++ rest'))) todo.length (before ++ pre).length r =
        .ok (r', (before ++ (pre ++ wirePairs todo)).length) ∧
      P b' r' := by
  induction todo generalizing pre b r with
  | nil =>
    refine ⟨b, r, ?_, ?_, h⟩
    · simp [bodyLoop, wirePairs]
    · simp [responseLoop, wirePairs]
  | cons w todo ih =>
    have hwp := hw w (by simp)
    have hstep := bodyLoop_step pre (wirePairs todo ++ rest) hwp todo.length b
    have hstep' := responseLoop_step (before ++ pre) (wirePairs todo ++ rest') hwp todo.length r
    -- both turns end at the same byte of the body
    have hstop : ((before ++ pre) ++ w.bytes).length = before.length + (pre ++ w.bytes).length := by
      rw [List.append_assoc, List.length_append]
    have hkept := hturn w (by simp) b r (pre ++ w.bytes).length
      (by rw [List.length_append]; omega) h
    rw [← hstop] at hkept
    obtain ⟨b', r', hb, hr, hagree'⟩ := ih (pre ++ w.bytes) (fun x hx => hw x (by simp [hx]))
      (fun x hx => hturn x (by simp [hx])) hkept
    refine ⟨b', r', ?_, ?_, hagree'⟩
    · rw [wirePairs_cons, List.append_assoc, List.length_cons, hstep, ← List.append_assoc pre, hb,
        List.append_assoc]
    · have hmem : before ++ (pre ++ (wirePairs (w :: todo) ++ rest')) =
          (before ++ pre) ++ (w.bytes ++ (wirePairs todo ++ rest')) := by
        rw [wirePairs_cons]
        simp only [List.append_assoc]
      have hmem' : (before ++ pre) ++ (w.bytes ++ (wirePairs todo ++ rest')) =
          before ++ ((pre ++ w.bytes) ++ (wirePairs todo ++ rest')) := by
        simp only [List.append_assoc]
      rw [List.append_assoc before pre w.bytes] at hr
      rw [hmem, List.length_cons, hstep', hmem', List.append_assoc before pre w.bytes, hr,
        wirePairs_cons, List.append_assoc pre]

/-! ## §4 — the iterator over the data.

It is set up at the end of the parse, over what was found under `TNT_DATA`. -/

/-- An array is iterated over. -/
theorem tpArrayItrInit_front (pre rest : Bytes) {xs : List Value} {bs : Bytes}
    (h : Encodes (.array xs) bs) :
    ∃ itr, tpArrayItrInit (pre ++ (bs ++ rest)) pre.length bs.length = .ok itr := by
  have hpos := h.length_pos
  have htype : expectType (pre ++ (bs ++ rest)) pre.length .array = .ok () :=
    expectType_front pre rest h
  have hcheck := mpCheck_front h []
  rw [List.append_nil] at hcheck
  obtain ⟨b, l, ds, body, rfl, hlead, hl, -⟩ := h.array_cases
  have hdec : mpDecodeArray (b :: ds ++ body ++ rest) = some (xs.length, 1 + ds.length) :=
    (mpDecodeArray_iff _ _ _).mpr ⟨b, l, ds, body ++ rest, by simp, hlead, hl, rfl⟩
  rw [tpArrayItrInit, if_neg (by omega)]
  simp only [htype, Outcome.ok_bind, List.drop_left, List.take_left, hcheck, decodeArrayAt, hdec,
    Option.map_some, Outcome.ofReader, Outcome.pure_eq]
  exact ⟨_, rfl⟩

/-- The data that the last pair delimits is an array.  Behind the body `tp_reply` sets up an
iterator over the data, which fails for data that is no array; that is why replies are asked to have
one. -/
theorem finish_of_finds {buf : Bytes} {base : Nat} {m : WireMap} {r : TpResponse}
    (hw : ∀ w ∈ m.pairs, BodyPair w)
    (hfinds : Finds buf base (some m) .data WirePair.valBytes r.data) (p : Nat) :
    ∃ r', finish buf r p = .ok (p, r') ∧ r'.sync = r.sync ∧ r'.code = r.code ∧
      r'.bitmap = r.bitmap ∧ r'.error = r.error ∧ r'.data = r.data := by
  cases hl : lastPair Proto.ResponseKey.data.num m.pairs with
  | none =>
    simp only [Finds, hl] at hfinds
    refine ⟨r, ?_, rfl, rfl, rfl, rfl, rfl⟩
    rw [finish, hfinds]
  | some found =>
    obtain ⟨pairs, w⟩ := found
    simp only [Finds, hl] at hfinds
    obtain ⟨span, hspan, -, hsum, hslice⟩ := hfinds
    obtain ⟨post, hpairs, hkey, -⟩ := lastPair_eq_some hl
    have hty := (hw w (by rw [hpairs]; simp)).data hkey
    obtain ⟨xs, hxs⟩ := Value.eq_array_of_ty hty
    have henc := w.val_encodes
    rw [hxs] at henc
    have hpos := henc.length_pos
    have hsize : span.last - span.first = w.valBytes.length := by omega
    rw [hsize] at hslice
    -- the buffer around the array
    have hlen := congrArg List.length hslice
    rw [List.length_take, List.length_drop] at hlen
    have hfirst : (buf.take span.first).length = span.first := List.length_take_of_le (by omega)
    have hdrop := List.take_append_drop w.valBytes.length (buf.drop span.first)
    have hbuf := List.take_append_drop span.first buf
    rw [hslice] at hdrop
    rw [← hdrop] at hbuf
    obtain ⟨itr, hitr⟩ := tpArrayItrInit_front (buf.take span.first)
      ((buf.drop span.first).drop w.valBytes.length) henc
    rw [hbuf, hfirst] at hitr
    refine ⟨{ r with tupleItr := itr }, ?_, rfl, rfl, rfl, rfl, rfl⟩
    rw [finish, hspan]
    simp only [hsize, hitr, Outcome.ok_bind, Outcome.pure_eq]

/-! ## §5 — whole replies.

The length, the two maps, the end.  `tp_reply` compares the length with the size of the buffer,
which may have more in it. -/

/-- `tp_reply` up to the end of a header that is there, behind a length that the check lets pass.
It stands in front of `afterHeader`, which is the rest of the function. -/
theorem tpReply_header {hdr : WireMap} (hw : ∀ w ∈ hdr.pairs, HeaderPair w) {n : Nat}
    (hn : n < 2 ^ 32) (tail : Bytes)
    (hsize : (n + 5) % 2 ^ 32 ≤ 5 + (hdr.bytes.length + tail.length)) :
    let buf := (0xce :: be 4 n ++ hdr.bytes) ++ tail
    let r := hdr.pairs.foldl TpResponse.recordHeader zeroResponse
    let p := (0xce :: be 4 n ++ hdr.bytes).length
    tpReply buf = if p = n + 5 then .ok ((n + 5) % 2 ^ 32, r) else afterHeader buf r p := by
  intro buf r p
  set pre := 0xce :: be 4 n with hpre
  have hfive : pre.length = 5 := by simp [hpre]
  have henc : Encodes (.uint n) pre := encodes_uint_five hn
  have hbuf : buf = pre ++ (hdr.bytes ++ tail) := List.append_assoc _ _ _
  have hblen : buf.length = 5 + (hdr.bytes.length + tail.length) := by
    rw [hbuf, List.length_append, List.length_append, hfive]
  have hcheck := mpCheck_front henc (hdr.bytes ++ tail)
  have htype : expectType (pre ++ (hdr.bytes ++ tail)) 0 .uint = .ok () := expectType_five _ hn
  have hdec : decodeUintAt (pre ++ (hdr.bytes ++ tail)) 0 = .ok (n, 5) := decodeUintAt_five _ hn
  have hopen := openMap_front hdr pre tail
  have hloop := headerLoop_fold (pre ++ hdr.head) tail hw zeroResponse
  have hend : (pre ++ hdr.head) ++ wirePairs hdr.pairs = pre ++ hdr.bytes := List.append_assoc _ _ _
  have hmem : (pre ++ hdr.head) ++ (wirePairs hdr.pairs ++ tail) = buf := by
    rw [hbuf, WireMap.bytes]
    simp only [List.append_assoc]
  rw [hmem, hend] at hloop
  rw [← hbuf] at hcheck htype hdec hopen
  have hmod : n % 2 ^ 32 = n := Nat.mod_eq_of_lt hn
  -- the comparison is made in 32 bits, and passes
  have hpass : ¬ buf.length < (n + 5) % 2 ^ 32 := by omega
  rw [tpReply, if_neg (by omega), hcheck]
  simp only [htype, hdec, Outcome.ok_bind, hmod, if_neg hpass]
  rw [hfive] at hopen
  simp only [hopen, Outcome.ok_bind, hloop, Outcome.pure_eq]
  rfl

/-- **Both parsers behind the header**, on a body with anything behind it; what the turns of the
loops keep holds in the end, before the iterator is set. -/
theorem bodies_keep (P : Body → TpResponse → Prop) (before rest : Bytes) {m : WireMap}
    (hw : ∀ w ∈ m.pairs, BodyPair w)
    (hturn : ∀ w ∈ m.pairs, ∀ b r stop, w.bytes.length ≤ stop → P b r →
      P (b.turn w stop) (r.turn w (before.length + stop)))
    (hdata : ∀ b r, P b r → r.data = b.data.map (Span.shift before.length))
    {start : TpResponse} (h : P ⟨none, none, none, none, some 0⟩ start) :
    ∃ b r tp, tntReplyBody0 m.bytes = .ok (b, m.bytes.length) ∧
      afterHeader (before ++ (m.bytes ++ rest)) start before.length =
        .ok ((before ++ m.bytes).length, tp) ∧
      P b r ∧ tp.sync = r.sync ∧ tp.code = r.code ∧ tp.bitmap = r.bitmap ∧ tp.error = r.error ∧
      tp.data = r.data := by
  obtain ⟨b, r, hbody, hloop, hkept⟩ := loops_keep P before m.head [] rest hw hturn h
  rw [← tntReplyBody0_loop] at hbody
  -- the span of the data is that of the last pair, which is an array
  obtain ⟨b', hspec, hshows⟩ := tntReplyBody0_spec hw
  obtain ⟨rfl, -⟩ := Prod.mk.inj (Outcome.ok.inj (hbody.symm.trans hspec))
  have hfinds : Finds (before ++ (m.bytes ++ rest)) before.length (some m) .data WirePair.valBytes
      r.data := by
    rw [hdata b r hkept, hshows.data]
    exact finds_of_lastSpan valBytes_endsPair
  obtain ⟨tp, hfinish, hfields⟩ := finish_of_finds hw hfinds (before ++ m.bytes).length
  refine ⟨b, r, tp, hbody, ?_, hkept, hfields⟩
  have hopen := openMap_front m before rest
  have hmem : before ++ (m.bytes ++ rest) = before ++ (m.head ++ (wirePairs m.pairs ++ rest)) := by
    rw [WireMap.bytes, List.append_assoc m.head]
  rw [← hmem] at hloop
  simp only [afterHeader, hopen, Outcome.ok_bind, hloop]
  exact hfinish

/-- ... with keys that the bitmap can hold. -/
theorem bodies_agree (before rest : Bytes) {m : WireMap} (hw : ∀ w ∈ m.pairs, ResponsePair w)
    {h : Hdr} {start : TpResponse} (hagree : HeadersAgree h start) :
    ∃ b tp, tntReplyBody0 m.bytes = .ok (b, m.bytes.length) ∧
      afterHeader (before ++ (m.bytes ++ rest)) start before.length =
        .ok ((before ++ m.bytes).length, tp) ∧
      BodiesAgree before.length start b tp := by
  obtain ⟨x, hx⟩ := hagree.defined
  have hstart : BodiesAgree before.length start ⟨none, none, none, none, some 0⟩ start := by
    refine ⟨rfl, rfl, ?_, ⟨0, rfl⟩, hagree.error, hagree.data⟩
    rw [hagree.bitmap, hx]
    simp
  obtain ⟨b, r, tp, hbody, hafter, hbodies, hsync, hcode, hbitmap, herror, hdata⟩ :=
    bodies_keep (BodiesAgree before.length start) before rest (fun w hin => (hw w hin).body)
      (fun w hin b r stop hstop hkept => hkept.turn (hw w hin) hstop) (fun b r hkept => hkept.data)
      hstart
  exact ⟨b, tp, hbody, hafter, hsync.trans hbodies.sync, hcode.trans hbodies.code,
    hbitmap.trans hbodies.bitmap, hbodies.defined, herror.trans hbodies.error,
    hdata.trans hbodies.data⟩

omit [Msgpuck] in
/-- The code of `libtnt` is cut from the one of `tp.h`. -/
theorem code_cut (n : Nat) : n % 2 ^ 15 = (n % 2 ^ 32) &&& 0x7fff := by
  have hand := Nat.and_two_pow_sub_one_eq_mod (n % 2 ^ 32) 15
  have hmod : n % 2 ^ 32 % 2 ^ 15 = n % 2 ^ 15 := Nat.mod_mod_of_dvd n (by decide)
  rw [← hmod, ← hand]

/-- **The reply parsers agree.**  On every complete reply whose header has the three keys of the
protocol, and whose body, if there is one, has keys below 64 and a text, an array and an array for
`TNT_ERROR`, `TNT_DATA` and `TNT_METADATA`, with anything behind it in the buffer: both take the
reply as a whole, and find the same sync, the same bitmap, the same code up to its 15th bit, the
same error and the same data.  The parsers keep what they find in different forms: pointers into the
message on one side, offsets into the buffer on the other.  The statement compares the bytes. -/
theorem replies_agree {hdr : WireMap} {body : Option WireMap}
    (hhdr : ∀ w ∈ hdr.pairs, HeaderPair w)
    (hbody : ∀ m, body = some m → ∀ w ∈ m.pairs, ResponsePair w)
    (hlen : hdr.bytes.length + (bodyBytes body).length < 2 ^ 32 - 5) (rest : Bytes) :
    ∃ tp r bitmap,
      tpReply (replyWire hdr body ++ rest) =
        .ok (5 + (hdr.bytes.length + (bodyBytes body).length), tp) ∧
      tntReply0 zeroReply (replyWire hdr body ++ rest) =
        some (0, r, some (5 + (hdr.bytes.length + (bodyBytes body).length))) ∧
      tp.sync = r.sync ∧ tp.bitmap = some bitmap ∧ r.bitmap = some bitmap ∧
      r.code = tp.code &&& 0x7fff ∧ tp.error = r.error ∧ tp.data = r.data := by
  set package := hdr.bytes ++ bodyBytes body with hpackage
  have hplen : package.length = hdr.bytes.length + (bodyBytes body).length := List.length_append
  set before := 0xce :: be 4 package.length ++ hdr.bytes with hbefore
  have hblen : before.length = 5 + hdr.bytes.length := by
    rw [hbefore]
    simp only [List.length_append, List.length_cons, be_length]
  have hwire : replyWire hdr body ++ rest = before ++ (bodyBytes body ++ rest) := by
    rw [replyWire, ← hpackage, ← hplen, hbefore, hpackage]
    simp only [List.append_assoc]
  have hwire' : 0xce :: be 4 package.length ++ (package ++ rest) =
      before ++ (bodyBytes body ++ rest) := by
    rw [hbefore, hpackage]
    simp only [List.append_assoc]
  have htp := tpReply_header hhdr (show package.length < 2 ^ 32 by omega) (bodyBytes body ++ rest)
    (by have := @List.length_append _ (bodyBytes body) rest; omega)
  have htnt := tntReply0_frame zeroReply package (by omega) rest
  have hhdr0 := tntReplyHdr0_fold (fun w hin => (hhdr w hin).number) (bodyBytes body)
  have hagree : HeadersAgree (hdr.pairs.foldl Hdr.record ⟨0, 0, 0, some 0⟩)
      (hdr.pairs.foldl TpResponse.recordHeader zeroResponse) :=
    HeadersAgree.fold ⟨rfl, rfl, rfl, ⟨0, rfl⟩, rfl, rfl⟩ hhdr
  simp only [← hbefore] at htp
  rw [← hpackage] at hhdr0
  simp only [hwire', hhdr0] at htnt
  set h := hdr.pairs.foldl Hdr.record ⟨0, 0, 0, some 0⟩ with hh
  set start := hdr.pairs.foldl TpResponse.recordHeader zeroResponse with hstart
  obtain ⟨x, hx⟩ := hagree.defined
  rw [hwire, ← hplen, htp, htnt]
  cases body with
  | none =>
    -- the package is its header, and both parsers stop behind it
    have hsame : package.length = hdr.bytes.length := hplen
    rw [if_pos (by omega), if_neg (by simp [hsame]), Nat.mod_eq_of_lt (by omega), Nat.add_comm]
    refine ⟨start, zeroReply.setHdr h, x, rfl, rfl, hagree.sync, hagree.bitmap.trans hx, hx, ?_,
      hagree.error, hagree.data⟩
    show h.code % 2 ^ 15 = _
    rw [hagree.code, code_cut]
  | some m =>
    have hpos := m.encodes.length_pos
    have hsum : package.length = hdr.bytes.length + m.bytes.length := hplen
    -- both go on with the same map
    have hdrop : package.drop hdr.bytes.length = m.bytes := List.drop_left
    have hend : (before ++ m.bytes).length = 5 + package.length := by
      rw [List.length_append]
      omega
    obtain ⟨b, tp, hbody0, hafter, hbodies⟩ := bodies_agree before rest (hbody m rfl) hagree
    obtain ⟨y, hy⟩ := hbodies.defined
    rw [if_neg (by omega), if_pos (by omega), hdrop, hbody0]
    refine ⟨tp, (zeroReply.setHdr h).setBody (iprotoHdrSize + hdr.bytes.length) b, x ||| y,
      by rw [← hend]; exact hafter, rfl, ?_, ?_, ?_, ?_, ?_, ?_⟩
    · exact hbodies.sync.trans hagree.sync
    · rw [hbodies.bitmap, hagree.bitmap, hx, hy]
      rfl
    · show h.bitmap.bind (fun x => b.bitmap.map (x ||| ·)) = some (x ||| y)
      rw [hx, hy]
      rfl
    · show h.code % 2 ^ 15 = tp.code &&& 0x7fff
      rw [hbodies.code, hagree.code, code_cut]
    · rw [hbodies.error, hblen]
      rfl
    · rw [hbodies.data, hblen]
      rfl

end Spec

/-! A reply with data, and a byte of the next reply behind it. -/

/-- `{TNT_CODE: 0, TNT_SCHEMA_ID: 80, TNT_SYNC: 7}`. -/
def dataHdr : WireMap :=
  .packed [.packed 0 (.uint 0) (Proto.HeaderKey.num_lt .code) (by simp [Value.Fits]),
    .packed 5 (.uint 80) (Proto.HeaderKey.num_lt .schemaId) (by simp [Value.Fits]),
    .packed 1 (.uint 7) (Proto.HeaderKey.num_lt .sync) sync_fits] (by decide)

/-- `{TNT_DATA: [nil]}`. -/
def dataBody : WireMap :=
  .packed [.packed 0x30 (.array [.nil]) (Proto.ResponseKey.num_lt .data)
    (by simp [Value.Fits, FitsAll])] (by decide)

/-- Parsed by both. -/
theorem replies_agree_data :
    ∃ tp r, @tpReply Msgpuck.reference [0xce, 0, 0, 0, 11, 0x83, 0, 0, 5, 80, 1, 7,
        0x81, 0x30, 0x91, 0xc0, 0xce] = .ok (16, tp) ∧
      @tntReply0 Msgpuck.reference zeroReply [0xce, 0, 0, 0, 11, 0x83, 0, 0, 5, 80, 1, 7,
        0x81, 0x30, 0x91, 0xc0, 0xce] = some (0, r, some 16) ∧
      tp.sync = r.sync ∧ tp.bitmap = r.bitmap ∧ tp.data = r.data := by
  have hhdr : ∀ w ∈ dataHdr.pairs, HeaderPair w := by
    intro w hw
    rcases List.mem_cons.mp hw with rfl | hw
    · exact ⟨.inl rfl, 0, rfl⟩
    rcases List.mem_cons.mp hw with rfl | hw
    · exact ⟨.inr (.inr rfl), 80, rfl⟩
    · rw [List.mem_singleton.mp hw]
      exact ⟨.inr (.inl rfl), 7, rfl⟩
  have hbody : ∀ m, some dataBody = some m → ∀ w ∈ m.pairs, ResponsePair w := by
    intro m hm w hw
    cases hm
    rw [List.mem_singleton.mp hw]
    exact ⟨by decide, by decide, fun _ => rfl, by decide⟩
  obtain ⟨tp, r, bitmap, htp, hr, hsync, hbit, hbit', -, -, hdata⟩ :=
    @replies_agree Msgpuck.reference dataHdr (some dataBody) hhdr hbody (by decide) [0xce]
  exact ⟨tp, r, htp, hr, hsync, hbit.trans hbit'.symm, hdata⟩

end TarantoolC.Tp
