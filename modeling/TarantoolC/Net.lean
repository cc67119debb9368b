/-
# TarantoolC.Net — the network stream (`tnt/tnt_net.c`) and the reply iterator (`tnt/tnt_iter.c`).

A network stream counts in `wrcnt` the requests it has written and not seen answered: a write adds
one, a reply takes one off unless it is a CHUNK.  The iterator reads replies as long as the counter
is not 0.

`tntNetReply_spec` says what reading one well-formed reply does; `tntNext_final`, `tntNext_chunk`
and `tntNext_end` are the three ways a call of the iterator ends.

The stream is `TarantoolC.Io.Stream` (two buffers and a transport) with two counters, `wrcnt` of 32
bits and `reqid` of 64.  Both are atomic in the source; one thread uses a stream here.  `netWrite`
is `tnt_net_write` and `tnt_net_writev` at once, which differ in the function they send with and in
nothing else.

Replies come over the wire as `WireReply`: a length of five bytes, a header and perhaps a body,
whatever the widths and the order of their keys.  Whether a reply is final is decided by what the
client can see of it, an error text or a code other than `TNT_CHUNK`, so `IsFinal` and `IsChunk` are
about the header and the body and not about what a server meant.

Two kinds of results.  On a transport that does not fail (`Ready`) a reply to come is read
completely, and what `tnt_next` returns is known.  On any transport and with any memory there is
still `tntNext_cases`, which says that a call either fails, with the iterator marked, or has taken a
length and exactly the announced bytes.
-/
import TarantoolC.Io.Recv
import TarantoolC.Io.Send
import TarantoolC.Reply

namespace TarantoolC.Net

open MsgPack Proto Reply Io

/-! ## §1 — the code.

The functions of the stream and of the iterator.  The counter is decremented in `uint32_t`, from
whatever it is. -/

/-- `struct tnt_stream` of a network stream: `wrcnt` is 32 bits wide, `reqid` 64. -/
structure TntStream where
  wrcnt : Nat
  reqid : UInt64
  net : StreamNet UInt8

/-- `pm_atomic_fetch_add(&s->wrcnt, 1)`. -/
def TntStream.countUp (s : TntStream) : TntStream := { s with wrcnt := (s.wrcnt + 1) % 2 ^ 32 }

/-- `pm_atomic_fetch_sub(&s->wrcnt, 1)`. -/
def TntStream.countDown (s : TntStream) : TntStream :=
  { s with wrcnt := (s.wrcnt + (2 ^ 32 - 1)) % 2 ^ 32 }

/-- `tnt_net_write` and `tnt_net_writev`, which differ in the function they send with. -/
def netWrite (op : SendOp UInt8) (s : TntStream) : Option (Int × TntStream) := do
  let (rc, net) ← sendCall s.net op
  let s := { s with net := net }
  if rc ≠ -1 then some (rc, s.countUp) else some (rc, s)

/-- `tnt_net_write`. -/
def tntNetWrite (s : TntStream) (buf : Bytes) : Option (Int × TntStream) := netWrite (.send buf) s

/-- `tnt_net_writev`. -/
def tntNetWritev (s : TntStream) (iov : List Bytes) : Option (Int × TntStream) :=
  netWrite (.sendv iov) s

/-- `tnt_flush`. -/
def tntFlush (s : TntStream) : Option (Int × TntStream) := do
  let (rc, net) ← sendCall s.net .flush
  return (rc, { s with net := net })

/-- `enum tnt_iter_status`. -/
inductive IterStatus where
  | ok | fail
  deriving Repr, DecidableEq

/-- `struct tnt_iter` of a reply iterator; its stream is passed along. -/
structure IterReply where
  status : IterStatus
  r : TntReply

/-- `tnt_iter_reply`. -/
def tntIterReply : IterReply := ⟨.ok, zeroReply⟩

section Code

variable [Msgpuck]

/-- `tnt_net_reply`.  The received bytes come from `tnt_io_recv` (`tnt_net_recv_cb`). -/
def tntNetReply (alloc : Nat → Bool) (s : TntStream) (r : TntReply) :
    Option (Int × TntReply × TntStream) :=
  if s.wrcnt = 0 then some (1, r, s)
  else do
    let (rv, r, net) ← tntReplyFrom alloc tntIoRecv s.net
    let s := { s with net := net }
    if r.error.isSome ∨ r.code &&& tntChunk = 0 then some (rv, r, s.countDown)
    else some (rv, r, s)

/-- `tnt_next` on a reply iterator (`tnt_iter_reply_next`).  The reply read before is freed and
cleared first. -/
def tntNext (alloc : Nat → Bool) (i : IterReply) (s : TntStream) :
    Option (Int × IterReply × TntStream) := do
  let (rc, r, s) ← tntNetReply alloc s zeroReply
  let i := { i with r := r }
  if rc = -1 then some (0, { i with status := .fail }, s)
  else some (if rc = 1 then 0 else 1, i, s)

/-- `while (tnt_next(&it)) { … }`: the replies its body sees, one after the other. -/
def nextLoop (alloc : Nat → Bool) :
    Nat → IterReply → TntStream → Option (List TntReply × IterReply × TntStream)
  | 0, _, _ => none
  | fuel + 1, i, s => do
    let (rv, i, s) ← tntNext alloc i s
    if rv = 0 then some ([], i, s)
    else
      let r := i.r
      let (rs, i, s) ← nextLoop alloc fuel i s
      some (r :: rs, i, s)

end Code

/-! ## §2 — replies on the wire.

What a client can see of a reply, and what it is read as. -/

/-- A reply of the format. -/
structure WireReply where
  hdr : WireMap
  body : Option WireMap
  wf : WellFormed hdr body
  length_lt : hdr.bytes.length + (bodyBytes body).length < 2 ^ 32

namespace WireReply

/-- The announced bytes. -/
def package (w : WireReply) : Bytes := w.hdr.bytes ++ bodyBytes w.body

def bytes (w : WireReply) : Bytes := replyWire w.hdr w.body

def code (w : WireReply) : Nat := lastNum .code w.hdr.pairs

/-- There is a `TNT_ERROR` text. -/
def HasError (w : WireReply) : Prop :=
  ∃ m, w.body = some m ∧ ∃ p ∈ m.pairs, p.key = ResponseKey.error.num

/-- A push: code `TNT_CHUNK`, no error. -/
def IsChunk (w : WireReply) : Prop := w.code = tntChunk ∧ ¬ w.HasError

/-- The last reply to a request: code 0, or an error code with its text. -/
def IsFinal (w : WireReply) : Prop :=
  w.code = 0 ∨ ∃ errno, w.code = 0x8000 ||| errno ∧ w.HasError

/-- What a parsed reply owns and tells. -/
structure ReadAs (w : WireReply) (r : TntReply) : Prop where
  buf : r.buf = some w.package
  tells : r.Tells w.package w.hdr.bytes.length w.hdr w.body

/-- Header and body, ... -/
theorem package_length (w : WireReply) :
    w.package.length = w.hdr.bytes.length + (bodyBytes w.body).length := List.length_append

/-- ... which are never empty, since a header is there, ... -/
theorem package_pos (w : WireReply) : 0 < w.package.length := by
  have hpos := w.hdr.encodes.length_pos
  rw [package_length]
  omega

/-- ... behind a length of five bytes, ... -/
theorem bytes_eq (w : WireReply) : w.bytes = (0xce :: be 4 w.package.length) ++ w.package := by
  rw [bytes, replyWire, package_length]
  rfl

/-- ... as many as the client receives first. -/
theorem prefix_length (w : WireReply) :
    (0xce :: be 4 w.package.length).length = iprotoHdrSize := by
  simp [iprotoHdrSize]

/-- A parsed reply has an error text exactly if the reply on the wire has one. -/
theorem ReadAs.error_isSome_iff {w : WireReply} {r : TntReply} (h : w.ReadAs r) :
    r.error.isSome ↔ w.HasError := by
  have hfinds := h.tells.error
  unfold HasError
  cases hb : w.body with
  | none =>
    rw [hb] at hfinds
    have hnone : r.error = none := hfinds
    rw [hnone]
    simp
  | some m =>
    rw [hb] at hfinds
    unfold Finds at hfinds
    cases hl : lastPair ResponseKey.error.num m.pairs with
    | none =>
      simp only [hl] at hfinds
      -- no pair has the key, and nothing was found
      have hno := lastPair_eq_none_iff.mp hl
      rw [hfinds]
      constructor
      · intro hsome
        exact absurd hsome (by simp)
      · rintro ⟨m', hm', p, hp, hk⟩
        cases hm'
        exact absurd hk (hno p hp)
    | some at' =>
      obtain ⟨pre, p⟩ := at'
      simp only [hl] at hfinds
      obtain ⟨sp, hsp, -⟩ := hfinds
      obtain ⟨post, hpairs, hk, -⟩ := lastPair_eq_some hl
      rw [hsp]
      refine ⟨fun _ => ⟨m, rfl, p, ?_, hk⟩, fun _ => rfl⟩
      rw [hpairs]
      simp

/-- The test in `tnt_net_reply` tells final replies from chunks. -/
theorem ReadAs.final_test {w : WireReply} {r : TntReply} (h : w.ReadAs r) (hw : w.IsFinal) :
    r.error.isSome ∨ r.code &&& tntChunk = 0 := by
  rcases hw with hcode | ⟨errno, -, herr⟩
  · right
    rw [h.tells.code]
    show w.code % 2 ^ 15 &&& tntChunk = 0
    rw [hcode]
    rfl
  · exact Or.inl (h.error_isSome_iff.mpr herr)

/-- The test of `tnt_net_reply` lets a chunk through. -/
theorem ReadAs.chunk_test {w : WireReply} {r : TntReply} (h : w.ReadAs r) (hw : w.IsChunk) :
    ¬ (r.error.isSome ∨ r.code &&& tntChunk = 0) := by
  rintro (herr | hcode)
  · exact hw.2 (h.error_isSome_iff.mp herr)
  · rw [h.tells.code] at hcode
    have hcode' : w.code % 2 ^ 15 &&& tntChunk = 0 := hcode
    rw [hw.1] at hcode'
    exact absurd hcode' (by decide)

end WireReply

/-! ## §3 — one call.

A reply stands in front of what is to come: it is read to its last byte and no further. -/

/-- What a final reply does to the counter. -/
theorem countDown_wrcnt {s : TntStream} (hpos : s.wrcnt ≠ 0) (hlt : s.wrcnt < 2 ^ 32) :
    s.countDown.wrcnt = s.wrcnt - 1 := by
  show (s.wrcnt + (2 ^ 32 - 1)) % 2 ^ 32 = s.wrcnt - 1
  omega

/-- A reply uses no number up. -/
theorem countDown_reqid (s : TntStream) : s.countDown.reqid = s.reqid := by
  rw [TntStream.countDown]

/-- A stream that can receive: its buffers are in order, its transport does not fail. -/
structure Ready (s : StreamNet UInt8) : Prop where
  rbuf : s.rbuf.WF
  sending : s.sbuf.Sending
  reliable : s.io.Reliable

/-- A write leaves what is to come as it is. -/
theorem toCome_of_frame {s s' : StreamNet UInt8} (h : SendFrame s s') : s'.toCome = s.toCome := by
  rw [StreamNet.toCome, StreamNet.toCome, h.rbuf, h.incoming]

/-- Sending leaves what is to come alone. -/
theorem Ready.sendCall {s s' : StreamNet UInt8} (h : Ready s) {op : SendOp UInt8} {rc : Int}
    (hcall : sendCall s op = some (rc, s')) : Ready s' ∧ s'.toCome = s.toCome := by
  have hframe := sendCall_frame h.sending hcall
  refine ⟨⟨by rw [hframe.rbuf]; exact h.rbuf, hframe.sending, ?_⟩, toCome_of_frame hframe⟩
  rintro n ⟨e, he⟩
  exact h.reliable n ⟨e, by rw [← hframe.move]; exact he⟩

/-- More bytes arrive. -/
def arrive (s : StreamNet UInt8) (bs : Bytes) : StreamNet UInt8 :=
  { s with io.incoming := s.io.incoming ++ bs }

/-- What arrives is behind what was to come. -/
theorem Ready.arrive {s : StreamNet UInt8} (h : Ready s) (bs : Bytes) :
    Ready (arrive s bs) ∧ (arrive s bs).toCome = s.toCome ++ bs := by
  refine ⟨⟨h.rbuf, h.sending, h.reliable⟩, ?_⟩
  show s.rbuf.unread ++ (s.io.incoming ++ bs) = (s.rbuf.unread ++ s.io.incoming) ++ bs
  rw [List.append_assoc]

/-- A receive of bytes that are there. -/
theorem Ready.recv {s : StreamNet UInt8} (h : Ready s) {front rest : Bytes}
    (hcome : s.toCome = front ++ rest) (hpos : 0 < front.length) :
    ∃ s', tntIoRecv s front.length = some ((front.length : Int), front, s') ∧ Ready s' ∧
      s'.toCome = rest := by
  obtain ⟨s', hrecv, hwf, -, hio, hrest, hsbuf, -⟩ :=
    @tntIoRecv_reliable _ s h.rbuf h.reliable front.length hpos (by rw [hcome]; simp)
  rw [hcome, List.take_left] at hrecv
  rw [hcome, List.drop_left] at hrest
  exact ⟨s', hrecv, ⟨hwf, by rw [hsbuf]; exact h.sending, hio⟩, hrest⟩

section Spec

variable [Msgpuck] {alloc : Nat → Bool}

/-- **`tnt_net_reply`** on a stream with a reply to come.  The counter goes down unless the reply is
a chunk, and what is behind the reply is still to come.  The reply that was read is the one that was
sent, field by field. -/
theorem tntNetReply_spec (halloc : ∀ n, alloc n = true) {s : TntStream} (h : Ready s.net)
    (hcnt : s.wrcnt ≠ 0) {w : WireReply} {rest : Bytes} (hcome : s.net.toCome = w.bytes ++ rest)
    (r₀ : TntReply) :
    ∃ r net, tntNetReply alloc s r₀ = (if r.error.isSome ∨ r.code &&& tntChunk = 0
        then some (0, r, TntStream.countDown { s with net := net })
        else some (0, r, { s with net := net })) ∧
      w.ReadAs r ∧ Ready net ∧ net.toCome = rest := by
  rw [w.bytes_eq, List.append_assoc] at hcome
  obtain ⟨net₁, hfirst, hready₁, hcome₁⟩ := h.recv hcome (by simp)
  obtain ⟨net₂, hsecond, hready₂, hcome₂⟩ := hready₁.recv hcome₁ w.package_pos
  rw [w.prefix_length] at hfirst
  obtain ⟨r, hfrom, hbuf, htells⟩ := tntReplyFrom_spec halloc w.wf w.package_length
    (by rw [w.package_length]; exact w.length_lt) hfirst hsecond
  refine ⟨r, net₂, ?_, ⟨hbuf, htells⟩, hready₂, hcome₂⟩
  simp only [tntNetReply, if_neg hcnt, hfrom, bind, Option.bind_some]

/-- A final reply: the counter goes down. -/
theorem tntNext_final (halloc : ∀ n, alloc n = true) {s : TntStream} (h : Ready s.net)
    (hcnt : s.wrcnt ≠ 0) {w : WireReply} {rest : Bytes} (hcome : s.net.toCome = w.bytes ++ rest)
    (hw : w.IsFinal) (i : IterReply) :
    ∃ r net, tntNext alloc i s = some (1, { i with r := r },
        TntStream.countDown { s with net := net }) ∧
      w.ReadAs r ∧ Ready net ∧ net.toCome = rest := by
  obtain ⟨r, net, hreply, hread, hready, hcome'⟩ := tntNetReply_spec halloc h hcnt hcome zeroReply
  rw [if_pos (hread.final_test hw)] at hreply
  refine ⟨r, net, ?_, hread, hready, hcome'⟩
  simp only [tntNext, hreply, bind, Option.bind_some, show ¬ (0 : Int) = -1 by decide,
    show ¬ (0 : Int) = 1 by decide, if_false]

/-- A chunk: the counter stays. -/
theorem tntNext_chunk (halloc : ∀ n, alloc n = true) {s : TntStream} (h : Ready s.net)
    (hcnt : s.wrcnt ≠ 0) {w : WireReply} {rest : Bytes} (hcome : s.net.toCome = w.bytes ++ rest)
    (hw : w.IsChunk) (i : IterReply) :
    ∃ r net, tntNext alloc i s = some (1, { i with r := r }, { s with net := net }) ∧
      w.ReadAs r ∧ Ready net ∧ net.toCome = rest := by
  obtain ⟨r, net, hreply, hread, hready, hcome'⟩ := tntNetReply_spec halloc h hcnt hcome zeroReply
  rw [if_neg (hread.chunk_test hw)] at hreply
  refine ⟨r, net, ?_, hread, hready, hcome'⟩
  simp only [tntNext, hreply, bind, Option.bind_some, show ¬ (0 : Int) = -1 by decide,
    show ¬ (0 : Int) = 1 by decide, if_false]

/-- Nothing outstanding: the iterator ends without touching the stream. -/
theorem tntNext_end (alloc : Nat → Bool) {s : TntStream} (hcnt : s.wrcnt = 0) (i : IterReply) :
    tntNext alloc i s = some (0, { i with r := zeroReply }, s) := by
  simp only [tntNext, tntNetReply, if_pos hcnt, bind, Option.bind_some,
    show ¬ (1 : Int) = -1 by decide, if_false, if_true]

/-! ## §4 — a call on any transport.

For the frame conditions: what was to come has lost a beginning at most, and the send buffer is as
it was. -/

/-- What `tnt_next` has read if it has read something: a length, and the announced bytes. -/
structure NextRead (s : TntStream) (r : TntReply) (s' : TntStream) : Prop where
  outstanding : s.wrcnt ≠ 0
  read : ∃ length size q buf, length.length = iprotoHdrSize ∧ buf.length = size ∧
    (do expectType length 0 .uint; decodeUintAt length 0 : Outcome (Nat × Nat)) = .ok (size, q) ∧
    s.net.toCome = length ++ (buf ++ s'.net.toCome) ∧ parseOwned buf = .ok r
  wrcnt : s'.wrcnt = if r.error.isSome ∨ r.code &&& tntChunk = 0 then s.countDown.wrcnt else s.wrcnt

/-- A call that has something to wait for, in terms of `tnt_reply_from`. -/
theorem tntNext_eq {i : IterReply} {s : TntStream} (hcnt : s.wrcnt ≠ 0) {rc : Int} {r : TntReply}
    {net : StreamNet UInt8} (hfrom : tntReplyFrom alloc tntIoRecv s.net = some (rc, r, net)) :
    ∃ s', tntNext alloc i s = some (if rc = -1 then 0 else if rc = 1 then 0 else 1,
        { status := if rc = -1 then .fail else i.status, r := r }, s') ∧ s'.net = net ∧
      s'.wrcnt =
        if r.error.isSome ∨ r.code &&& tntChunk = 0 then s.countDown.wrcnt else s.wrcnt := by
  by_cases hfinal : r.error.isSome ∨ r.code &&& tntChunk = 0
  · refine ⟨TntStream.countDown { s with net := net }, ?_, rfl, by rw [if_pos hfinal]; rfl⟩
    by_cases hrc : rc = -1 <;> simp [tntNext, tntNetReply, hcnt, hfrom, hfinal, hrc]
  · refine ⟨{ s with net := net }, ?_, rfl, by rw [if_neg hfinal]⟩
    by_cases hrc : rc = -1 <;> simp [tntNext, tntNetReply, hcnt, hfrom, hfinal, hrc]

/-- **How `tnt_next` ends**, whatever the transport and the allocator do.  This is what holds where
nothing is assumed of either. -/
theorem tntNext_cases {i i' : IterReply} {s s' : TntStream} (hwf : s.net.rbuf.WF) {rv : Int}
    (h : tntNext alloc i s = some (rv, i', s')) :
    s'.net.rbuf.WF ∧ s'.net.sbuf = s.net.sbuf ∧ (rv ≠ 0 → NextRead s i'.r s') := by
  by_cases hcnt : s.wrcnt = 0
  · rw [tntNext_end alloc hcnt] at h
    cases h
    exact ⟨hwf, rfl, fun hrv => absurd rfl hrv⟩
  cases hfrom : tntReplyFrom alloc tntIoRecv s.net with
  | none => simp [tntNext, tntNetReply, hcnt, hfrom] at h
  | some p =>
    obtain ⟨rc, r, net⟩ := p
    obtain ⟨s'', hcall, rfl, hwrcnt⟩ := tntNext_eq (i := i) hcnt hfrom
    rw [hcall] at h
    cases h
    -- two receives: the length, and as many bytes as it says
    obtain ⟨rc₁, length, net₁, hfirst, hends⟩ := tntReplyFrom_cases hfrom
    obtain ⟨hwf₁, hsbuf₁, hgot₁⟩ := tntIoRecv_cases hwf hfirst
    rcases hends with ⟨rfl, -, rfl | ⟨size, rc₂, buf, hsecond⟩⟩ |
      ⟨rfl, hrc₁, size, q, rc₂, buf, hsize, hsecond, hrc₂, hparse⟩
    · exact ⟨hwf₁, hsbuf₁, fun hrv => absurd rfl hrv⟩
    · obtain ⟨hwf₂, hsbuf₂, -⟩ := tntIoRecv_cases hwf₁ hsecond
      exact ⟨hwf₂, hsbuf₂.trans hsbuf₁, fun hrv => absurd rfl hrv⟩
    · obtain ⟨hwf₂, hsbuf₂, hgot₂⟩ := tntIoRecv_cases hwf₁ hsecond
      obtain ⟨hlen₁, hflow₁⟩ := hgot₁ hrc₁
      obtain ⟨hlen₂, hflow₂⟩ := hgot₂ hrc₂
      refine ⟨hwf₂, hsbuf₂.trans hsbuf₁, ?_⟩
      intro _
      refine ⟨hcnt, ⟨length, size, q, buf, hlen₁, hlen₂, hsize, ?_, hparse⟩, hwrcnt⟩
      rw [hflow₁, hflow₂]

/-- If the stream goes on with a reply of the format, this is what has been read. -/
theorem NextRead.readAs {s s' : TntStream} {r : TntReply} (h : NextRead s r s') {w : WireReply}
    {rest : Bytes} (hcome : s.net.toCome = w.bytes ++ rest) :
    w.ReadAs r ∧ s'.net.toCome = rest := by
  obtain ⟨length, size, q, buf, hlen, hbuf, hsize, hflow, hparse⟩ := h.read
  rw [hflow, w.bytes_eq, List.append_assoc] at hcome
  obtain ⟨rfl, htail⟩ := List.append_inj hcome (by rw [hlen, w.prefix_length])
  -- the announced length is that of the package
  have hlt := w.length_lt
  rw [← w.package_length] at hlt
  have htype := expectType_five [] hlt
  have hdec := decodeUintAt_five [] hlt
  rw [List.append_nil] at htype hdec
  rw [htype, Outcome.ok_bind, hdec] at hsize
  have hsame : w.package.length = size := congrArg Prod.fst (Outcome.ok.inj hsize)
  obtain ⟨rfl, hrest⟩ := List.append_inj htail (by rw [hbuf, hsame])
  obtain ⟨r', hparse', howned, htells⟩ := parseOwned_spec w.wf
  have hr : r' = r := Outcome.ok.inj (hparse'.symm.trans hparse)
  rw [hr] at howned htells
  exact ⟨⟨howned, htells⟩, hrest⟩

/-- A final reply counts. -/
theorem NextRead.count {s s' : TntStream} {r : TntReply} (h : NextRead s r s') {w : WireReply}
    (hr : w.ReadAs r) (hw : w.IsFinal) (hlt : s.wrcnt < 2 ^ 32) : s'.wrcnt = s.wrcnt - 1 := by
  rw [h.wrcnt, if_pos (hr.final_test hw)]
  exact countDown_wrcnt h.outstanding hlt

end Spec

end TarantoolC.Net
