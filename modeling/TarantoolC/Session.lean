/-
# TarantoolC.Session — a client and its server, end to end.

`TarantoolC.Accounting` counts requests and replies.  Here the requests are calls of the encoders, the
bytes they leave are what the server reads, and the server answers what it has read.  A request is in
one of these places: in the send buffer, on its way, in the server's inbox, or with the server; its
replies are on their way or with the client.  Client, network and server take their steps in any order.

`session_orderly` is the result.  In every state of every run the server has the requests of the calls
in their order, each once and byte for byte; nothing stays behind after a flush; every reply that the
client has belongs to a call, by its number, and no call has two final replies; and when the counter
is down to 0 every call has been served and has had its final reply.

## Where a request is

The invariant is the places put together in their order.  `Flow` has the first half: the messages
the server has taken, those in its inbox, what the transport carries, and the send buffer are one
string, the wire of all calls.  `Answered` has the second half, about numbers alone: of the calls
that were written each is open or has had its final reply.  `Numbered` ties the two: the number in
the header of a message is that of its call.

The write counter of the stream is 32 bits wide, and a call that would wrap it is no step of a run.
Nothing else is bounded, neither the number of calls over the life of the connection nor how they,
the arrivals and the replies interleave; only that no two calls have one number ends with the `2^64`
numbers there are.

`Inv.call`, `Inv.fails` and `Inv.reply` are the three events with something to prove, `Inv.step`
puts all together, and every conjunct of `Orderly` is a lemma `Inv.…` about one state.
-/
import TarantoolC.Framing
import TarantoolC.Accounting
import TarantoolC.Schema.Reload

namespace TarantoolC.Session

open MsgPack Msgpuck Proto Reply Io Net Request Framing Accounting

/-! ## §1 — the server.

A server reads a length, waits for as many bytes, and decodes the package.  It is the reader of
`TarantoolC.Framing`, and any server that keeps to the protocol is as good. -/

/-- A server takes a message off what it has received: the announced length, and as many bytes. -/
def takeMessage (received : Bytes) : Option (Bytes × Bytes) :=
  match decodeFront received with
  | some (.uint n, rest) => if n ≤ rest.length then some (rest.take n, rest.drop n) else none
  | _ => none

/-- A message is taken off exactly where a length and as many bytes stand in front. -/
theorem takeMessage_eq_some {received package rest : Bytes} :
    takeMessage received = some (package, rest) ↔
      ∃ bs, received = bs ++ (package ++ rest) ∧ Encodes (.uint package.length) bs := by
  constructor
  · intro h
    unfold takeMessage at h
    split at h
    · next n behind hdec =>
      obtain ⟨bs, hbs, henc⟩ := decodeFront_eq_some_iff.mp hdec
      split_ifs at h with hle
      obtain ⟨rfl, rfl⟩ := Prod.mk.inj (Option.some.inj h)
      refine ⟨bs, by rw [List.take_append_drop, hbs], ?_⟩
      rwa [List.length_take, Nat.min_eq_left hle]
    · cases h
  · rintro ⟨bs, rfl, henc⟩
    rw [takeMessage, decodeFront_append henc]
    have hle : package.length ≤ (package ++ rest).length := by
      rw [List.length_append]
      omega
    simp only [if_pos hle, List.take_left, List.drop_left]

/-- Its reader. -/
def server : Reader UInt8 Bytes where
  take := takeMessage
  nil := rfl
  more := by
    intro s package r h t
    obtain ⟨bs, rfl, henc⟩ := takeMessage_eq_some.mp h
    refine takeMessage_eq_some.mpr ⟨bs, ?_, henc⟩
    rw [List.append_assoc, List.append_assoc]

/-- The prefix a client writes is an encoding of the length. -/
theorem lengthPrefix_encodes {n : Nat} (h : n < 2 ^ 64) : Encodes (.uint n) (lengthPrefix n) := by
  unfold lengthPrefix
  split_ifs with hlt
  · exact encodes_uint_five hlt
  · exact .uint (l := .wide 8) (by decide) ⟨be_length _ _, beNat_be (by simpa using h)⟩

/-! ## §2 — calls.

The calls of a session are those of `TarantoolC.Request.Direct`, with the number they were given.
What is promised of the arguments (`Call.Fits`) is what the encoders' results ask for, and nothing
about the stream. -/

/-- A call of an encoder, and the number it was given. -/
structure Call where
  direct : Direct
  sync : UInt64

section Calls

variable [Digest]

def Call.package (c : Call) : Bytes := packageWire c.direct.type c.sync.toNat c.direct.fields

def Call.wire (c : Call) : Bytes := messageWire c.direct.type c.sync.toNat c.direct.fields

/-- What is promised of the arguments. -/
structure Call.Fits (c : Call) : Prop where
  texts : c.direct.TextsFit
  size : c.package.length < 2 ^ 64

/-- What a call writes is what the server's reader takes for one message. -/
theorem Call.writes {c : Call} (h : c.Fits) : server.Writes c.package c.wire := by
  refine takeMessage_eq_some.mpr ⟨_, ?_, lengthPrefix_encodes h.size⟩
  rw [List.append_nil]
  rfl

/-- How an encoder ends: it refuses, and no number is used up; or it hands over a short vector. -/
def Ends (reqid : UInt64) (r : Option (Sent × UInt64)) : Prop :=
  ∀ sent reqid', r = some (sent, reqid') →
    (sent = .refused ∧ reqid' = reqid) ∨
      ∃ iov, sent = .writev iov ∧ reqid' = reqid + 1 ∧ iov.length ≤ 6

section Ends

variable {reqid : UInt64}

omit [Digest] in
/-- How the encoders end: by refusing, ... -/
theorem Ends.refused : Ends reqid (some (.refused, reqid)) := by
  intro sent reqid' h
  cases h
  exact .inl ⟨rfl, rfl⟩

omit [Digest] in
/-- ... behind a step that may be undefined, ... -/
theorem Ends.bind {α : Type} {f : α → Option (Sent × UInt64)} (h : ∀ a, Ends reqid (f a))
    (x : Option α) : Ends reqid (x >>= f) := by
  intro sent reqid' hsome
  obtain ⟨a, -, ha⟩ := Option.bind_eq_some_iff.mp hsome
  exact h a sent reqid' ha

variable [Msgpuck]

omit [Digest] in
/-- ... with a package, ... -/
theorem Ends.package {v : List Bytes} (h : v.length ≤ 5) :
    Ends reqid (some (sendPackage reqid v)) := by
  intro sent reqid' hsome
  cases hsome
  exact .inr ⟨_, rfl, rfl, Nat.succ_le_succ h⟩

omit [Digest] in
/-- ... behind a check, ... -/
theorem Ends.verified {rest : Option (Sent × UInt64)} (h : Ends reqid rest) (obj : StreamBuf) :
    Ends reqid (verified reqid obj rest) := by
  refine Ends.bind (fun rv => ?_) _
  split_ifs
  · exact Ends.refused
  · exact h

omit [Digest] in
/-- ... and so in the shape that calls and evaluations share. -/
theorem textAndArray_ends (op : RequestType) (textKey arrayKey : BodyKey) (text : Option Bytes)
    (array : StreamBuf) : Ends reqid (textAndArray reqid op textKey arrayKey text array) := by
  unfold textAndArray
  split
  · exact Ends.refused
  · split_ifs
    · exact Ends.refused
    · exact (Ends.bind (fun _ => Ends.bind (fun _ => Ends.package (by simp)) _) _).verified _

/-- **Every encoder ends so.**  It is read off the shapes that the encoders are made of, and not
function by function. -/
theorem exec_ends (r : Direct) : Ends reqid (r.exec reqid) := by
  have hthree : ∀ {a b c : Bytes}, [a, b, c].length ≤ 5 := by simp
  have hfive : ∀ {a b c d e : Bytes}, [a, b, c, d, e].length ≤ 5 := by simp
  cases r with
  | select | insert | replace | delete =>
    exact (Ends.bind (fun _ => Ends.bind (fun _ => Ends.package hthree) _) _).verified _
  | update | upsert =>
    exact ((Ends.bind (fun _ => Ends.bind (fun _ => Ends.package hfive) _) _).verified _).verified _
  | call | call16 | eval | execute => exact textAndArray_ends _ _ _ _ _
  | ping => exact Ends.bind (fun _ => Ends.bind (fun _ => Ends.package (by simp)) _) _
  | auth user pass salt =>
    refine Ends.bind (fun _ => ?_) _
    split_ifs
    · exact Ends.bind (fun _ => Ends.package (by simp)) _
    · exact Ends.bind (fun _ => Ends.bind (fun _ => Ends.package (by simp)) _) _

end Ends

/-- What `writev` is given is the request. -/
theorem Call.exec_writes [Msgpuck] {c : Call} (h : c.Fits) {iov : List Bytes} {reqid' : UInt64}
    (hexec : c.direct.exec c.sync = some (.writev iov, reqid')) : iov.flatten = c.wire := by
  obtain ⟨v, hv, hflat⟩ := c.direct.exec_sends c.sync h.texts (Direct.accepts_of_exec hexec)
  obtain ⟨iov', hsend, hwire⟩ := sendPackage_wire hflat h.size
  rw [hexec, hsend] at hv
  cases hv
  exact hwire

end Calls

/-! ## §3 — the stream.

Each call of the client does one of two things to what has been written: it adds the bytes of one
message, or it changes nothing.  Where these bytes are, in the buffer or at the transport, does not
matter to anyone. -/

/-- A receive gives nothing to the transport. -/
theorem tntIoRecv_after {s s' : StreamNet UInt8} (hwf : s.rbuf.WF) {size : Nat} {rc : Int}
    {got : Bytes} (h : tntIoRecv s size = some (rc, got, s')) : s.io.AfterRecv s'.io := by
  rcases Nat.eq_zero_or_pos size with rfl | hpos
  · unfold tntIoRecv at h
    cases hb : s.rbuf.buf with
    | some block =>
      simp only [hb, recvLoop, Nat.add_zero, if_pos hwf.off_le] at h
      cases h
      exact Transport.AfterRecv.refl _
    | none =>
      rcases hrecv : s.io.recv 0 with ⟨bs, io⟩
      obtain ⟨hafter, -, hlen, -⟩ := Transport.recv_spec hrecv
      have hnone : bs.length = 0 := by omega
      simp only [hb, tntIoRecvRaw, recvRawLoop, List.length_nil, Nat.sub_zero, hrecv,
        if_pos hnone] at h
      cases h
      exact hafter
  · obtain ⟨rc', got', s'', hrecv, hpost⟩ := tntIoRecv_spec hwf hpos
    rw [hrecv] at h
    cases h
    exact hpost.io

/-- Reading a reply gives nothing to the transport either. -/
theorem tntReplyFrom_after [Msgpuck] {alloc : Nat → Bool} {s s' : StreamNet UInt8}
    (hwf : s.rbuf.WF) {rc : Int} {r : TntReply}
    (h : tntReplyFrom alloc tntIoRecv s = some (rc, r, s')) :
    s'.rbuf.WF ∧ s'.sbuf = s.sbuf ∧ s.io.AfterRecv s'.io := by
  obtain ⟨rc₁, length, s₁, hfirst, hends⟩ := tntReplyFrom_cases h
  obtain ⟨hwf₁, hsbuf₁, -⟩ := tntIoRecv_cases hwf hfirst
  have hafter := tntIoRecv_after hwf hfirst
  have hboth : ∀ {size rc₂ buf}, tntIoRecv s₁ size = some (rc₂, buf, s') →
      s'.rbuf.WF ∧ s'.sbuf = s.sbuf ∧ s.io.AfterRecv s'.io := by
    intro size rc₂ buf hsecond
    obtain ⟨hwf₂, hsbuf₂, -⟩ := tntIoRecv_cases hwf₁ hsecond
    exact ⟨hwf₂, hsbuf₂.trans hsbuf₁, hafter.trans (tntIoRecv_after hwf₁ hsecond)⟩
  rcases hends with ⟨-, -, hsame | ⟨size, rc₂, buf, hsecond⟩⟩ |
    ⟨-, -, size, q, rc₂, buf, -, hsecond, -⟩
  · rw [hsame]
    exact ⟨hwf₁, hsbuf₁, hafter⟩
  · exact hboth hsecond
  · exact hboth hsecond

/-- Reading replies does not touch the send buffer, and takes from the transport only what has
arrived. -/
theorem tntNext_after [Msgpuck] {alloc : Nat → Bool} {i i' : IterReply} {s s' : TntStream}
    (hwf : s.net.rbuf.WF) {rv : Int} (h : tntNext alloc i s = some (rv, i', s')) :
    s'.net.sbuf = s.net.sbuf ∧ s.net.io.AfterRecv s'.net.io := by
  by_cases hcnt : s.wrcnt = 0
  · rw [tntNext_end alloc hcnt] at h
    cases h
    exact ⟨rfl, Transport.AfterRecv.refl _⟩
  cases hfrom : tntReplyFrom alloc tntIoRecv s.net with
  | none => simp [tntNext, tntNetReply, hcnt, hfrom] at h
  | some p =>
    obtain ⟨rc, r, net⟩ := p
    obtain ⟨s'', hcall, rfl, -⟩ := tntNext_eq (i := i) hcnt hfrom
    rw [hcall] at h
    cases h
    exact (tntReplyFrom_after hwf hfrom).2

/-- What has been written, in the transport or in front of it, and the bound on vectors. -/
structure Kept (s s' : TntStream) : Prop where
  log : s'.net.log = s.net.log
  iovmax : s'.net.io.iovmax = s.net.io.iovmax

/-- Such a step keeps what was written. -/
theorem Kept.of_after {s s' : TntStream}
    (h : s'.net.sbuf = s.net.sbuf ∧ s.net.io.AfterRecv s'.net.io) : Kept s s' := by
  obtain ⟨hsbuf, hio⟩ := h
  refine ⟨?_, hio.iovmax⟩
  rw [StreamNet.log, StreamNet.log, hsbuf, hio.accepted]

/-- A flush that returns has kept it, too, and has left the buffer empty. -/
theorem tntFlush_kept {s s' : TntStream} (hready : Ready s.net) {rc : Int}
    (h : tntFlush s = some (rc, s')) : Kept s s' ∧ s'.net.sbuf.off = 0 := by
  obtain ⟨rc', net, hcall, hkept, ⟨-, -, hzero⟩, hlog⟩ :=
    @sendCall_reliable _ _ hready.sending hready.reliable .flush trivial
  simp only [tntFlush, hcall, bind, Option.bind_some, pure] at h
  cases h
  refine ⟨⟨?_, hkept.iovmax⟩, hzero⟩
  rw [hlog, SendCall.written]
  split_ifs
  · exact List.append_nil _
  · exact List.append_nil _

/-- **A write** adds its bytes behind what has been written, or nothing.  What comes back with -1
has added nothing, and no part of a message is left behind: the transport of a session does not
fail. -/
theorem tntNetWritev_log {s s' : TntStream} (hready : Ready s.net) {iov : List Bytes}
    (hpos : 1 ≤ iov.flatten.length) (hcount : iov.length ≤ s.net.io.iovmax) {rc : Int}
    (h : tntNetWritev s iov = some (rc, s')) :
    s'.reqid = s.reqid ∧ s'.net.io.iovmax = s.net.io.iovmax ∧ Ready s'.net ∧
      s'.net.toCome = s.net.toCome ∧
      s'.wrcnt = (if rc = -1 then s.wrcnt else (s.wrcnt + 1) % 2 ^ 32) ∧
      s'.net.log = s.net.log ++ (if rc = -1 then [] else iov.flatten) := by
  obtain ⟨rc', net, hcall, hkept, hfine, hlog⟩ :=
    @sendCall_reliable _ _ hready.sending hready.reliable (.sendv iov) ⟨hpos, hcount⟩
  obtain ⟨hready', hcome⟩ := hready.sendCall hcall
  -- the result is -1, or the length
  have hrc : rc' = -1 ∨ rc' = iov.flatten.length := by
    have hends := hfine.2
    dsimp only at hends
    split_ifs at hends
    · exact .inl hends.1
    · exact .inr hends
  have hwritten : net.log = s.net.log ++ if rc' = -1 then [] else iov.flatten := by
    rw [hlog, SendCall.written]
    rcases hrc with rfl | rfl
    · rfl
    · rw [if_pos (Int.natCast_nonneg _), if_neg (by omega)]
      rfl
  simp only [tntNetWritev, netWrite, hcall, bind, Option.bind_some] at h
  by_cases hfail : rc' = -1
  · rw [if_neg (not_not.mpr hfail)] at h
    cases h
    exact ⟨rfl, hkept.iovmax, hready', hcome, (if_pos hfail).symm, hwritten⟩
  · rw [if_pos hfail] at h
    cases h
    exact ⟨rfl, hkept.iovmax, hready', hcome, (if_neg hfail).symm, hwritten⟩

/-! ## §4 — requests on their way.

The messages of the calls, cut in two places: at what the server has taken, and at what has been
delivered.  A flush and a partial write move neither cut. -/

section Ways

variable [Digest]

/-- The server has the first of the requests, and the others are in its inbox and behind. -/
structure Flow (calls : List Call) (requests : List Bytes) (inbox log : Bytes) (delivered : Nat) :
    Prop where
  served : requests = (calls.take requests.length).map Call.package
  delivered_le : delivered ≤ log.length
  come : inbox ++ log.drop delivered = ((calls.drop requests.length).map Call.wire).flatten

variable {calls : List Call} {requests : List Bytes} {inbox log : Bytes} {delivered : Nat}

/-- The server has no more requests than there were calls. -/
theorem Flow.length_le (h : Flow calls requests inbox log delivered) :
    requests.length ≤ calls.length := by
  have hlen := congrArg List.length h.served
  rw [List.length_map, List.length_take] at hlen
  omega

/-- One more request is written. -/
theorem Flow.call (h : Flow calls requests inbox log delivered) (c : Call) :
    Flow (calls ++ [c]) requests inbox (log ++ c.wire) delivered := by
  refine ⟨?_, ?_, ?_⟩
  · rw [List.take_append_of_le_length h.length_le]
    exact h.served
  · rw [List.length_append]
    exact Nat.le_add_right_of_le h.delivered_le
  · rw [List.drop_append_of_le_length h.delivered_le, List.drop_append_of_le_length h.length_le,
      ← List.append_assoc, h.come, List.map_append, List.flatten_append, List.map_singleton,
      List.flatten_singleton]

/-- Some bytes arrive. -/
theorem Flow.deliver {accepted front : Bytes}
    (h : Flow calls requests inbox (accepted ++ front) delivered) {n : Nat}
    (hn : delivered + n ≤ accepted.length) :
    Flow calls requests (inbox ++ (accepted.drop delivered).take n) (accepted ++ front)
      (delivered + n) := by
  refine ⟨h.served, ?_, ?_⟩
  · rw [List.length_append]
    omega
  · have hback : (accepted ++ front).drop (delivered + n) =
        (accepted.drop delivered).drop n ++ front := by
      rw [List.drop_append_of_le_length hn, List.drop_drop]
    have hcome := h.come
    rw [List.drop_append_of_le_length (by omega)] at hcome
    rw [hback, List.append_assoc, ← List.append_assoc (List.take n _), List.take_append_drop, hcome]

omit [Digest] in
/-- One step along a list. -/
theorem split_next {α : Type} {l l' : List α} {a : α} {n : Nat} (h : l.drop n = a :: l') :
    l.drop (n + 1) = l' ∧ l.take (n + 1) = l.take n ++ [a] := by
  refine ⟨by rw [← List.tail_drop, h]; rfl, ?_⟩
  have hget : l[n]? = some a := by rw [← List.head?_drop, h]; rfl
  rw [List.take_add_one, hget]
  rfl

/-- The server takes the next request. -/
theorem Flow.take (h : Flow calls requests inbox log delivered) (hfits : ∀ c ∈ calls, c.Fits)
    {package rest : Bytes} (htake : takeMessage inbox = some (package, rest)) :
    Flow calls (requests ++ [package]) rest log delivered := by
  have hwrites : ∀ c ∈ calls.drop requests.length, server.Writes c.package c.wire :=
    fun c hc => Call.writes (hfits c (List.mem_of_mem_drop hc))
  obtain ⟨c, cs, hcs, rfl, hcome⟩ := Reader.next hwrites h.come htake
  obtain ⟨htail, hfront⟩ := split_next hcs
  refine ⟨?_, h.delivered_le, ?_⟩
  · rw [List.length_append, List.length_singleton, hfront, List.map_append, ← h.served]
    rfl
  · rw [List.length_append, List.length_singleton, htail]
    exact hcome

/-- Nothing is kept back on the way, and the server waits: it has everything. -/
theorem Flow.all (h : Flow calls requests inbox log delivered) (hfits : ∀ c ∈ calls, c.Fits)
    (hend : delivered = log.length) (hwaits : takeMessage inbox = none) :
    requests = calls.map Call.package := by
  have hwrites : ∀ c ∈ calls.drop requests.length, server.Writes c.package c.wire :=
    fun c hc => Call.writes (hfits c (List.mem_of_mem_drop hc))
  have hcome := h.come
  rw [hend, List.drop_length, List.append_nil] at hcome
  have hnone := Reader.idle hwrites hcome hwaits
  have hserved := h.served
  rwa [List.take_of_length_le (List.drop_eq_nil_iff.mp hnone)] at hserved

end Ways

/-! ## §5 — answers, and numbers.

This half of the invariant knows neither bytes nor streams.  It counts final replies for each
request and compares with the list of those that are open. -/

/-- The final replies to a request. -/
def finalsOf (k : Nat) (l : List Arrival) : Nat := l.countP fun a => a.final && a.request == k

/-- Final replies are counted one by one, ... -/
theorem finalsOf_append (k : Nat) (l l' : List Arrival) :
    finalsOf k (l ++ l') = finalsOf k l + finalsOf k l' := List.countP_append

/-- ... and a reply counts for its own request, if it is final. -/
theorem finalsOf_singleton (k : Nat) (a : Arrival) :
    finalsOf k [a] = if a.final = true ∧ a.request = k then 1 else 0 := by
  simp [finalsOf, List.countP_cons]

/-- A request is open, or has had its final reply, and never both. -/
structure Answered (pending : List Nat) (arrived : List Arrival) (written : Nat) : Prop where
  lt : ∀ k ∈ pending, k < written
  known : ∀ a ∈ arrived, a.request < written
  once : ∀ k < written, finalsOf k arrived + pending.count k = 1

section Answers

variable {pending : List Nat} {arrived : List Arrival} {written : Nat}

/-- A request that is written is open, ... -/
theorem Answered.write (h : Answered pending arrived written) :
    Answered (pending ++ [written]) arrived (written + 1) := by
  refine ⟨fun k hk => ?_, fun a ha => Nat.lt_succ_of_lt (h.known a ha), fun k hk => ?_⟩
  · rcases List.mem_append.mp hk with hk | hk
    · exact Nat.lt_succ_of_lt (h.lt k hk)
    · rw [List.mem_singleton.mp hk]
      exact Nat.lt_succ_self _
  · rw [List.count_append, List.count_singleton]
    rcases Nat.lt_succ_iff_lt_or_eq.mp hk with hlt | rfl
    · have hone := h.once k hlt
      rw [if_neg (by simp; omega)]
      exact hone
    · -- the new request: open, and not answered
      have hnone : finalsOf k arrived = 0 := by
        refine List.countP_eq_zero.mpr fun a ha => ?_
        have hlt := h.known a ha
        simp
        omega
      have hzero : pending.count k = 0 :=
        List.count_eq_zero.mpr fun hmem => Nat.lt_irrefl _ (h.lt k hmem)
      rw [hnone, hzero, if_pos (by simp)]

/-- ... and a final reply closes it. -/
theorem Answered.reply (h : Answered pending arrived written) {a : Arrival}
    (ha : a.request ∈ pending) :
    Answered (if a.final then pending.erase a.request else pending) (arrived ++ [a]) written := by
  refine ⟨fun k hk => ?_, fun b hb => ?_, fun k hk => ?_⟩
  · split_ifs at hk
    · exact h.lt k (List.mem_of_mem_erase hk)
    · exact h.lt k hk
  · rcases List.mem_append.mp hb with hb | hb
    · exact h.known b hb
    · rw [List.mem_singleton.mp hb]
      exact h.lt _ ha
  · have hone := h.once k hk
    rw [finalsOf_append, finalsOf_singleton]
    by_cases hf : a.final = true
    · rw [if_pos hf]
      by_cases hk' : a.request = k
      · subst hk'
        have hpos : 0 < pending.count a.request := List.count_pos_iff.mpr ha
        rw [if_pos ⟨hf, rfl⟩, List.count_erase_self]
        omega
      · rw [if_neg (fun hboth => hk' hboth.2), List.count_erase_of_ne (Ne.symm hk')]
        exact hone
    · rw [if_neg hf, if_neg (fun hboth => hf hboth.1)]
      exact hone

end Answers

/-- The numbers of the calls are in the order in which numbers are given out. -/
structure Numbered (first reqid : UInt64) (calls : List Call) (numbers : Nat) : Prop where
  next : reqid = first + UInt64.ofNat numbers
  each : ∃ offs : List Nat, offs.Pairwise (· < ·) ∧ (∀ o ∈ offs, o < numbers) ∧
    calls.map Call.sync = offs.map fun o => first + UInt64.ofNat o

section Numbers

variable {first reqid : UInt64} {calls : List Call} {numbers : Nat}

/-- A number is used up. -/
theorem Numbered.skip (h : Numbered first reqid calls numbers) :
    Numbered first (reqid + 1) calls (numbers + 1) := by
  obtain ⟨offs, hsorted, hlt, hsyncs⟩ := h.each
  refine ⟨?_, offs, hsorted, fun o ho => Nat.lt_succ_of_lt (hlt o ho), hsyncs⟩
  rw [h.next, UInt64.ofNat_add, UInt64.add_assoc]
  rfl

/-- A number is used up for a call. -/
theorem Numbered.call (h : Numbered first reqid calls numbers) (r : Direct) :
    Numbered first (reqid + 1) (calls ++ [⟨r, reqid⟩]) (numbers + 1) := by
  obtain ⟨offs, hsorted, hlt, hsyncs⟩ := h.each
  refine ⟨h.skip.next, offs ++ [numbers], ?_, fun o ho => ?_, ?_⟩
  · refine List.pairwise_append.mpr ⟨hsorted, List.pairwise_singleton _ _, fun o ho n hn => ?_⟩
    rw [List.mem_singleton.mp hn]
    exact hlt o ho
  · rcases List.mem_append.mp ho with ho | ho
    · exact Nat.lt_succ_of_lt (hlt o ho)
    · rw [List.mem_singleton.mp ho]
      exact Nat.lt_succ_self _
  · rw [List.map_append, List.map_append, hsyncs, List.map_singleton, List.map_singleton, h.next]

/-- No number is given to two calls, as long as there are enough. -/
theorem Numbered.nodup (h : Numbered first reqid calls numbers) (hfew : numbers ≤ 2 ^ 64) :
    (calls.map Call.sync).Nodup := by
  obtain ⟨offs, hsorted, hlt, hsyncs⟩ := h.each
  rw [hsyncs]
  refine List.Nodup.map_on (fun o ho p hp heq => ?_) (hsorted.imp Nat.ne_of_lt)
  have hsame : UInt64.ofNat o = UInt64.ofNat p := (UInt64.add_right_inj first).mp heq
  have hnat := congrArg UInt64.toNat hsame
  rw [UInt64.toNat_ofNat', UInt64.toNat_ofNat', Nat.mod_eq_of_lt, Nat.mod_eq_of_lt] at hnat
  · exact hnat
  · exact Nat.lt_of_lt_of_le (hlt p hp) hfew
  · exact Nat.lt_of_lt_of_le (hlt o ho) hfew

end Numbers

/-! ## §6 — the system.

The client of `TarantoolC.Accounting`, now with the calls it has made, and beside it the network and
the server.  A step is one event at one of the three, and any of them may be the next. -/

/-- The client, as it was; the calls it has written, and how many numbers it has given out.  Of what
it has given to the transport `delivered` bytes have arrived; the server has taken `requests` off
them and still has `inbox`. -/
structure Sys where
  client : Accounting.Sys
  calls : List Call
  numbers : Nat
  delivered : Nat
  inbox : Bytes
  requests : List Bytes

section System

variable [Msgpuck] [Digest] (alloc : Nat → Bool)

/-- One event.  A call is written, or comes back with -1; a flush; bytes arrive at the server; the
server takes a request; it sends a reply to a request it has taken, with the number it read there; a
call of `tnt_next`, which waits for a reply if it has to. -/
inductive Step : Sys → Sys → Prop
  | call {σ : Sys} {r : Direct} {sent : Sent × UInt64} {rc : Int} {s' : TntStream}
      (hfits : (⟨r, σ.client.s.reqid⟩ : Call).Fits) (hsmall : σ.client.s.wrcnt + 1 < 2 ^ 32)
      (hexec : r.exec σ.client.s.reqid = some sent)
      (hcall : Schema.sendOn σ.client.s sent = some (rc, s')) (hok : rc ≠ -1) :
      Step σ { σ with
        client := { σ.client with
          s := s'
          written := σ.client.written + 1
          pending := σ.client.pending ++ [σ.client.written] }
        calls := σ.calls ++ [⟨r, σ.client.s.reqid⟩]
        numbers := σ.numbers + 1 }
  | fails {σ : Sys} {r : Direct} {sent : Sent × UInt64} {s' : TntStream}
      (hfits : (⟨r, σ.client.s.reqid⟩ : Call).Fits)
      (hexec : r.exec σ.client.s.reqid = some sent)
      (hcall : Schema.sendOn σ.client.s sent = some (-1, s')) :
      Step σ { σ with
        client := { σ.client with s := s' }
        numbers := if sent.1 = .refused then σ.numbers else σ.numbers + 1 }
  | flush {σ : Sys} {rc : Int} {s' : TntStream} (hcall : tntFlush σ.client.s = some (rc, s')) :
      Step σ { σ with client := { σ.client with s := s' } }
  | deliver {σ : Sys} {n : Nat} (hn : σ.delivered + n ≤ σ.client.s.net.io.accepted.length) :
      Step σ { σ with
        delivered := σ.delivered + n
        inbox := σ.inbox ++ (σ.client.s.net.io.accepted.drop σ.delivered).take n }
  | take {σ : Sys} {package rest : Bytes} (htake : takeMessage σ.inbox = some (package, rest)) :
      Step σ { σ with
        inbox := rest
        requests := σ.requests ++ [package] }
  | reply {σ : Sys} {a : Arrival} {package : Bytes} {type : RequestType}
      {pairs : List (BodyKey × Value)} (hopen : a.request ∈ σ.client.pending)
      (htaken : σ.requests[a.request]? = some package)
      (hsync : Decodes package type (lastNum .sync a.reply.hdr.pairs) pairs) :
      Step σ { σ with
        client := { σ.client with
          s := { σ.client.s with net := arrive σ.client.s.net a.reply.bytes }
          pending :=
            if a.final then σ.client.pending.erase a.request else σ.client.pending
          arrived := σ.client.arrived ++ [a] } }
  | next {σ : Sys} {rv : Int} {it' : IterReply} {s' : TntStream}
      (hwait : σ.client.s.wrcnt ≠ 0 → σ.client.inFlight ≠ [])
      (hcall : tntNext alloc σ.client.it σ.client.s = some (rv, it', s')) :
      Step σ { σ with
        client := { σ.client with
          s := s'
          it := it'
          returned := if rv = 0 then σ.client.returned else σ.client.returned ++ [it'.r] } }

/-- Any number of events. -/
def Run : Sys → Sys → Prop := Relation.ReflTransGen (Step alloc)

end System

/-- A client that starts, with nothing in its send buffer, and a server that has received what was
sent before and is done with it. -/
structure Start (σ : Sys) : Prop where
  client : Accounting.Start σ.client
  iovmax : 16 ≤ σ.client.s.net.io.iovmax
  off : σ.client.s.net.sbuf.off = 0
  calls : σ.calls = []
  numbers : σ.numbers = 0
  delivered : σ.delivered = σ.client.s.net.io.accepted.length
  inbox : σ.inbox = []
  requests : σ.requests = []

/-! ## §7 — the invariant.

One lemma for each event; the events of the client that write nothing have one in common
(`Inv.kept`). -/

/-- Another stream with the same things to come and the same count. -/
theorem inv_stream {σ : Accounting.Sys} (h : Accounting.Inv σ) {s' : TntStream}
    (hready : Ready s'.net) (hcome : s'.net.toCome = σ.s.net.toCome)
    (hcnt : s'.wrcnt = σ.s.wrcnt) : Accounting.Inv { σ with s := s' } := by
  refine ⟨hready, h.status, hcome.trans h.flow, ?_, ?_, ?_, h.told, h.last⟩
  · rw [hcnt]
    exact h.small
  · rw [hcnt]
    exact h.count
  · rw [hcnt]
    exact h.total

section Invariant

variable [Digest]

/-- What holds in every state. -/
structure Inv (first : UInt64) (σ : Sys) : Prop where
  client : Accounting.Inv σ.client
  iovmax : 16 ≤ σ.client.s.net.io.iovmax
  fits : ∀ c ∈ σ.calls, c.Fits ∧ c.direct.Accepts
  written : σ.calls.length = σ.client.written
  flow : Flow σ.calls σ.requests σ.inbox σ.client.s.net.log σ.delivered
  numbered : Numbered first σ.client.s.reqid σ.calls σ.numbers
  answered : Answered σ.client.pending σ.client.arrived σ.client.written
  echoed : ∀ a ∈ σ.client.arrived, a.request < σ.requests.length ∧
    ∃ c, σ.calls[a.request]? = some c ∧ lastNum .sync a.reply.hdr.pairs = c.sync.toNat

/-- A session starts in order. -/
theorem Start.inv {σ : Sys} (h : Start σ) : Inv σ.client.s.reqid σ := by
  have hnone : σ.client.arrived = [] := h.client.arrived
  -- nothing is buffered at the start, so the log is what the kernel has taken
  have hlog : σ.client.s.net.log = σ.client.s.net.io.accepted := by
    rw [StreamNet.log, Iob.front, h.off, List.take_zero, List.append_nil]
  refine ⟨h.client.inv, h.iovmax, ?_, ?_, ⟨?_, ?_, ?_⟩, ⟨?_, [], .nil, ?_, ?_⟩, ⟨?_, ?_, ?_⟩, ?_⟩
  · rw [h.calls]
    exact fun c hc => absurd hc List.not_mem_nil
  · rw [h.calls, h.client.written]
    rfl
  · rw [h.requests, h.calls]
    rfl
  · rw [h.delivered, hlog]
  · rw [h.inbox, hlog, h.delivered, h.calls, List.drop_length, List.drop_nil]
    rfl
  · rw [h.numbers]
    exact (UInt64.add_zero _).symm
  · exact fun o ho => absurd ho List.not_mem_nil
  · rw [h.calls]
    rfl
  · rw [h.client.pending]
    exact fun k hk => absurd hk List.not_mem_nil
  · rw [hnone]
    exact fun a ha => absurd ha List.not_mem_nil
  · rw [h.client.written]
    exact fun k hk => absurd hk (Nat.not_lt_zero k)
  · rw [hnone]
    exact fun a ha => absurd ha List.not_mem_nil

omit [Digest] in
/-- Replies stay with their calls when there are more calls and more requests. -/
theorem echoed_mono {arrived : List Arrival} {calls : List Call} {n : Nat}
    (h : ∀ a ∈ arrived, a.request < n ∧
      ∃ c, calls[a.request]? = some c ∧ lastNum .sync a.reply.hdr.pairs = c.sync.toNat)
    (more : List Call) (m : Nat) : ∀ a ∈ arrived, a.request < n + m ∧
      ∃ c, (calls ++ more)[a.request]? = some c ∧
        lastNum .sync a.reply.hdr.pairs = c.sync.toNat := by
  intro a ha
  obtain ⟨hlt, c, hc, hsync⟩ := h a ha
  refine ⟨Nat.lt_add_right m hlt, c, ?_, hsync⟩
  obtain ⟨hin, -⟩ := List.getElem?_eq_some_iff.mp hc
  rwa [List.getElem?_append_left hin]

variable [Msgpuck] {first : UInt64} {σ : Sys}

/-- A call that hands a vector to the stream. -/
theorem Inv.writev (h : Inv first σ) {r : Direct} (hfits : (⟨r, σ.client.s.reqid⟩ : Call).Fits)
    {iov : List Bytes} {reqid' : UInt64}
    (hexec : r.exec σ.client.s.reqid = some (.writev iov, reqid')) {rc : Int} {s' : TntStream}
    (hcall : tntNetWritev { σ.client.s with reqid := reqid' } iov = some (rc, s')) :
    s'.reqid = σ.client.s.reqid + 1 ∧ s'.net.io.iovmax = σ.client.s.net.io.iovmax ∧
      Ready s'.net ∧ s'.net.toCome = σ.client.s.net.toCome ∧
      s'.wrcnt = (if rc = -1 then σ.client.s.wrcnt else (σ.client.s.wrcnt + 1) % 2 ^ 32) ∧
      s'.net.log = σ.client.s.net.log ++
        (if rc = -1 then [] else (⟨r, σ.client.s.reqid⟩ : Call).wire) := by
  obtain ⟨hnumber, hcount⟩ : reqid' = σ.client.s.reqid + 1 ∧ iov.length ≤ 6 := by
    rcases exec_ends r _ _ hexec with ⟨hrefused, -⟩ | ⟨iov', hiov, hnumber, hlen⟩
    · cases hrefused
    · cases hiov
      exact ⟨hnumber, hlen⟩
  have hwire : iov.flatten = (⟨r, σ.client.s.reqid⟩ : Call).wire := Call.exec_writes hfits hexec
  have hpos : 1 ≤ iov.flatten.length := by
    rw [hwire, Call.wire, messageWire, List.length_append]
    exact Nat.le_add_right_of_le (lengthPrefix_encodes hfits.size).length_pos
  have hroom : iov.length ≤ σ.client.s.net.io.iovmax := by
    have hmax := h.iovmax
    omega
  have hready : Ready σ.client.s.net := h.client.ready
  obtain ⟨hreqid, hkept, hready', hcome, hcnt, hlog⟩ :=
    @tntNetWritev_log { σ.client.s with reqid := reqid' } s' hready iov hpos hroom rc hcall
  rw [hwire] at hlog
  exact ⟨hreqid.trans hnumber, hkept, hready', hcome, hcnt, hlog⟩

/-- **A call that is written** gets the next number and goes behind all others. -/
theorem Inv.call (h : Inv first σ) {r : Direct} (hfits : (⟨r, σ.client.s.reqid⟩ : Call).Fits)
    (hsmall : σ.client.s.wrcnt + 1 < 2 ^ 32) {sent : Sent × UInt64}
    (hexec : r.exec σ.client.s.reqid = some sent) {rc : Int} {s' : TntStream}
    (hcall : Schema.sendOn σ.client.s sent = some (rc, s')) (hok : rc ≠ -1) :
    Inv first { σ with
      client := { σ.client with
        s := s'
        written := σ.client.written + 1
        pending := σ.client.pending ++ [σ.client.written] }
      calls := σ.calls ++ [⟨r, σ.client.s.reqid⟩]
      numbers := σ.numbers + 1 } := by
  obtain ⟨sent, reqid'⟩ := sent
  cases sent with
  | refused =>
    cases hcall
    exact absurd rfl hok
  | writev iov =>
    have hwrite : tntNetWritev { σ.client.s with reqid := reqid' } iov = some (rc, s') := hcall
    obtain ⟨hreqid, hmax, -, -, -, hlog⟩ := h.writev hfits hexec hwrite
    rw [if_neg hok] at hlog
    -- giving out the number does not touch the accounting, writing counts one
    have hclient := @inv_stream _ h.client { σ.client.s with reqid := reqid' } h.client.ready rfl rfl
    have htotal := h.client.total
    refine ⟨?_, ?_, ?_, ?_, ?_, ?_, h.answered.write, ?_⟩
    · exact @Accounting.Inv.write { σ.client with s := { σ.client.s with reqid := reqid' } } hclient
        (.sendv iov) rc s'
        (show σ.client.written + 1 < finals σ.client.read + 2 ^ 32 by omega) hwrite hok
    · show 16 ≤ s'.net.io.iovmax
      rw [hmax]
      exact h.iovmax
    · intro c hc
      rcases List.mem_append.mp hc with hc | hc
      · exact h.fits c hc
      · rw [List.mem_singleton.mp hc]
        exact ⟨hfits, Direct.accepts_of_exec hexec⟩
    · show (σ.calls ++ [_]).length = σ.client.written + 1
      rw [List.length_append, h.written]
      rfl
    · -- the message goes behind all others
      show Flow _ _ _ s'.net.log _
      rw [hlog]
      exact h.flow.call _
    · show Numbered first s'.reqid _ _
      rw [hreqid]
      exact h.numbered.call r
    · exact echoed_mono h.echoed [⟨r, σ.client.s.reqid⟩] 0

/-- **A call that comes back with -1** has written nothing.  Its number is used up, unless its
arguments were refused. -/
theorem Inv.fails (h : Inv first σ) {r : Direct} (hfits : (⟨r, σ.client.s.reqid⟩ : Call).Fits)
    {sent : Sent × UInt64} (hexec : r.exec σ.client.s.reqid = some sent) {s' : TntStream}
    (hcall : Schema.sendOn σ.client.s sent = some (-1, s')) :
    Inv first { σ with
      client := { σ.client with s := s' }
      numbers := if sent.1 = .refused then σ.numbers else σ.numbers + 1 } := by
  obtain ⟨sent, reqid'⟩ := sent
  cases sent with
  | refused =>
    -- the arguments do not pass: nothing happens
    have hsame : reqid' = σ.client.s.reqid := by
      rcases exec_ends r _ _ hexec with ⟨-, hsame⟩ | ⟨iov, hiov, -⟩
      · exact hsame
      · cases hiov
    cases hcall
    subst hsame
    exact h
  | writev iov =>
    obtain ⟨hreqid, hmax, hready, hcome, hcnt, hlog⟩ := h.writev hfits hexec hcall
    rw [if_pos rfl] at hcnt
    rw [if_pos rfl, List.append_nil] at hlog
    refine ⟨inv_stream h.client hready hcome hcnt, ?_, h.fits, h.written, ?_, ?_, h.answered,
      h.echoed⟩
    · show 16 ≤ s'.net.io.iovmax
      rw [hmax]
      exact h.iovmax
    · show Flow _ _ _ s'.net.log _
      rw [hlog]
      exact h.flow
    · show Numbered first s'.reqid σ.calls
        (if Sent.writev iov = .refused then σ.numbers else σ.numbers + 1)
      rw [hreqid, if_neg (by simp)]
      exact h.numbered.skip

omit [Msgpuck] in
/-- A server that takes a request knows its number. -/
theorem Flow.number {calls : List Call} {requests : List Bytes} {inbox log : Bytes}
    {delivered : Nat} (h : Flow calls requests inbox log delivered) {i : Nat} {package : Bytes}
    (htaken : requests[i]? = some package) {type : RequestType} {sync : Nat}
    {pairs : List (BodyKey × Value)} (hdec : Decodes package type sync pairs) :
    i < requests.length ∧ ∃ c, calls[i]? = some c ∧ sync = c.sync.toNat := by
  obtain ⟨hlt, -⟩ := List.getElem?_eq_some_iff.mp htaken
  rw [h.served, List.getElem?_map, List.getElem?_take_of_lt hlt] at htaken
  obtain ⟨c, hc, rfl⟩ := Option.map_eq_some_iff.mp htaken
  refine ⟨hlt, c, hc, ?_⟩
  obtain ⟨body, hhead, -⟩ := hdec
  have henc := encodes_encodeWith packed_sound _ (header_fits c.direct.type c.sync.toNat_lt)
  have hfront : decodeFront c.package = _ := decodeFront_append henc (bodyWire c.direct.fields)
  rw [hfront] at hhead
  have hsame := (Prod.mk.inj (Option.some.inj hhead)).1
  simp only [header, Value.map.injEq, List.cons.injEq, Prod.mk.injEq, Value.uint.injEq] at hsame
  exact hsame.2.1.2.symm

omit [Msgpuck] in
/-- **The server answers** a request that it has taken and that is open. -/
theorem Inv.reply (h : Inv first σ) {a : Arrival} {package : Bytes} {type : RequestType}
    {pairs : List (BodyKey × Value)} (hopen : a.request ∈ σ.client.pending)
    (htaken : σ.requests[a.request]? = some package)
    (hsync : Decodes package type (lastNum .sync a.reply.hdr.pairs) pairs) :
    Inv first { σ with
      client := { σ.client with
        s := { σ.client.s with net := arrive σ.client.s.net a.reply.bytes }
        pending := if a.final then σ.client.pending.erase a.request else σ.client.pending
        arrived := σ.client.arrived ++ [a] } } := by
  have hpos : 0 < σ.client.pending.length := List.length_pos_of_mem hopen
  refine ⟨h.client.arrive ?_ ?_, h.iovmax, h.fits, h.written, h.flow, h.numbered,
    h.answered.reply hopen, fun b hb => ?_⟩
  · split_ifs with hf
    · rw [List.length_erase_of_mem hopen]
      omega
    · rfl
  · intro hnone
    by_contra hf
    rw [if_neg hf] at hnone
    rw [hnone] at hpos
    exact absurd hpos (Nat.lt_irrefl 0)
  · rcases List.mem_append.mp hb with hb | hb
    · exact h.echoed b hb
    · rw [List.mem_singleton.mp hb]
      exact h.flow.number htaken hsync

omit [Msgpuck] in
/-- Events of the client that write nothing. -/
theorem Inv.kept (h : Inv first σ) {s' : TntStream} {it' : IterReply} {returned' : List TntReply}
    (hclient : Accounting.Inv { σ.client with s := s', it := it', returned := returned' })
    (hkept : Kept σ.client.s s') (hreqid : s'.reqid = σ.client.s.reqid) :
    Inv first { σ with
      client := { σ.client with s := s', it := it', returned := returned' } } := by
  refine ⟨hclient, ?_, h.fits, h.written, ?_, ?_, h.answered, h.echoed⟩
  · show 16 ≤ s'.net.io.iovmax
    rw [hkept.iovmax]
    exact h.iovmax
  · show Flow _ _ _ s'.net.log _
    rw [hkept.log]
    exact h.flow
  · show Numbered first s'.reqid _ _
    rw [hreqid]
    exact h.numbered

/-- **One event.**  Each is a lemma above; an arrival moves the cut of what has been delivered, and
taking a message the cut of what the server has. -/
theorem Inv.step (h : Inv first σ) {alloc : Nat → Bool} (halloc : ∀ n, alloc n = true) {σ' : Sys}
    (hstep : Step alloc σ σ') : Inv first σ' := by
  cases hstep with
  | call hfits hsmall hexec hcall hok => exact h.call hfits hsmall hexec hcall hok
  | fails hfits hexec hcall => exact h.fails hfits hexec hcall
  | flush hcall =>
    exact h.kept (h.client.flush hcall) (tntFlush_kept h.client.ready hcall).1
      (Schema.tntFlush_reqid hcall)
  | deliver hn =>
    exact ⟨h.client, h.iovmax, h.fits, h.written, Flow.deliver h.flow hn, h.numbered, h.answered,
      h.echoed⟩
  | take htake =>
    refine ⟨h.client, h.iovmax, h.fits, h.written, h.flow.take (fun c hc => (h.fits c hc).1) htake,
      h.numbered, h.answered, fun a ha => ?_⟩
    have hmore := echoed_mono h.echoed [] 1 a ha
    rw [List.append_nil] at hmore
    rw [List.length_append]
    exact hmore
  | reply hopen htaken hsync => exact h.reply hopen htaken hsync
  | next hwait hcall =>
    exact h.kept (h.client.next halloc hwait hcall) (.of_after (tntNext_after h.client.ready.rbuf hcall))
      (Schema.tntNext_reqid hcall)

/-- Any number of events. -/
theorem Inv.run (h : Inv first σ) {alloc : Nat → Bool} (halloc : ∀ n, alloc n = true) {σ' : Sys}
    (hrun : Run alloc σ σ') : Inv first σ' := by
  induction hrun with
  | refl => exact h
  | tail _ hstep ih => exact ih.step halloc hstep

/-- Every state of a run. -/
theorem Run.inv {alloc : Nat → Bool} (halloc : ∀ n, alloc n = true) {σ₀ σ : Sys} (hstart : Start σ₀)
    (hrun : Run alloc σ₀ σ) : Inv σ₀.client.s.reqid σ :=
  hstart.inv.run halloc hrun

end Invariant

/-! ## §8 — what holds across every run.

The invariant is about numbers and cuts; what it means for a caller is `Orderly`, a clause for each
promise. -/

section Result

variable [Digest]

/-- What client and server can rely on in a state. -/
structure Orderly (σ : Sys) : Prop where
  /-- The server has the requests of the calls, in their order, each once and byte for byte. -/
  requests : σ.requests <+: σ.calls.map Call.package
  /-- What it decodes is what the call was made with. -/
  decoded : ∀ c ∈ σ.calls, ∃ pairs, List.Forall₂ Field.Reads c.direct.fields pairs ∧
    Decodes c.package c.direct.type c.sync.toNat pairs
  /-- A flush goes through, and leaves nothing in the buffer. -/
  flush : ∃ rc s', tntFlush σ.client.s = some (rc, s') ∧ s'.net.sbuf.off = 0
  /-- With nothing in the buffer and nothing on its way, a server that waits has all requests. -/
  flushed : σ.client.s.net.sbuf.off = 0 → σ.delivered = σ.client.s.net.io.accepted.length →
    takeMessage σ.inbox = none → σ.requests = σ.calls.map Call.package
  /-- The replies that the client has are those that the server has sent, in this order, and each has
  the number of the call that it is for. -/
  replies : List.Forall₂ (fun a r => a.reply.ReadAs r ∧
    ∃ c, σ.calls[a.request]? = some c ∧ r.sync = c.sync.toNat) σ.client.read σ.client.returned
  /-- No call has two final replies. -/
  once : ∀ k, finalsOf k σ.client.read ≤ 1
  /-- With the counter at 0 every call has been served and has its final reply. -/
  done : σ.client.s.wrcnt = 0 → σ.requests = σ.calls.map Call.package ∧
    ∀ k < σ.calls.length, finalsOf k σ.client.read = 1
  /-- No two calls have one number. -/
  numbers : σ.numbers ≤ 2 ^ 64 → (σ.calls.map Call.sync).Nodup

variable {first : UInt64} {σ : Sys}

/-- What the server has are the first of the calls, ... -/
theorem Inv.requests_prefix (h : Inv first σ) : σ.requests <+: σ.calls.map Call.package := by
  rw [h.flow.served]
  exact (List.take_prefix _ _).map _

omit [Digest] in
/-- What has been read is a front part of what has been sent. -/
theorem finalsOf_read_le (k : Nat) (σ : Accounting.Sys) :
    finalsOf k σ.read ≤ finalsOf k σ.arrived :=
  (List.take_sublist _ _).countP_le

/-- ... none of which has two final replies, ... -/
theorem Inv.finalsOf_le (h : Inv first σ) (k : Nat) : finalsOf k σ.client.arrived ≤ 1 := by
  by_cases hk : k < σ.client.written
  · have hone := h.answered.once k hk
    omega
  · have hnone : finalsOf k σ.client.arrived = 0 := by
      refine List.countP_eq_zero.mpr fun a ha => ?_
      have hlt := h.answered.known a ha
      simp
      omega
    omega

/-- With nothing outstanding, every reply has been read and no request is open. -/
theorem Inv.read_all (h : Inv first σ) (hcnt : σ.client.s.wrcnt = 0) :
    σ.client.pending = [] ∧ σ.client.read = σ.client.arrived := by
  have hcount := h.client.count
  have hfl : σ.client.inFlight = [] := h.client.inFlight_nil hcnt
  refine ⟨List.length_eq_zero_iff.mp (by omega), ?_⟩
  have hsplit : σ.client.read ++ σ.client.inFlight = σ.client.arrived := List.take_append_drop _ _
  rwa [hfl, List.append_nil] at hsplit

/-- ... and with nothing outstanding all of them, each with one. -/
theorem Inv.done (h : Inv first σ) (hcnt : σ.client.s.wrcnt = 0) :
    σ.requests = σ.calls.map Call.package ∧
      ∀ k < σ.calls.length, finalsOf k σ.client.read = 1 := by
  obtain ⟨hpending, hread⟩ := h.read_all hcnt
  have hfinal : ∀ k < σ.calls.length, finalsOf k σ.client.arrived = 1 := by
    intro k hk
    have hone := h.answered.once k (by rw [← h.written]; exact hk)
    rwa [hpending, List.count_nil] at hone
  refine ⟨?_, fun k hk => by rw [hread]; exact hfinal k hk⟩
  -- the last call has been answered, so the server has its request
  have hle : σ.calls.length ≤ σ.requests.length := by
    by_contra hlt
    have hk : σ.requests.length < σ.calls.length := Nat.lt_of_not_le hlt
    have hpos : 0 < finalsOf σ.requests.length σ.client.arrived := by
      rw [hfinal _ hk]
      exact Nat.one_pos
    obtain ⟨a, ha, hit⟩ := List.countP_pos_iff.mp hpos
    have hreq : a.request = σ.requests.length := by
      simp only [Bool.and_eq_true, beq_iff_eq] at hit
      exact hit.2
    have hknown := (h.echoed a ha).1
    omega
  have hserved := h.flow.served
  rwa [List.take_of_length_le hle] at hserved

/-- The invariant says all of it. -/
theorem Inv.orderly [Msgpuck] (h : Inv first σ) : Orderly σ := by
  refine ⟨h.requests_prefix, fun c hc => ?_, ?_, fun hoff hend hwaits => ?_, ?_, fun k => ?_, h.done,
    h.numbered.nodup⟩
  · obtain ⟨hfits, hacc⟩ := h.fits c hc
    obtain ⟨pairs, hreads⟩ := c.direct.fields_reads hfits.texts hacc
    refine ⟨pairs, hreads, packageWire_decodes _ c.sync.toNat_lt hreads ?_⟩
    cases c.direct <;> (simp only [Direct.fields, List.length_cons, List.length_nil]; omega)
  · obtain ⟨rc, net, hcall, -, ⟨-, -, hzero⟩, -⟩ :=
      @sendCall_reliable _ _ h.client.ready.sending h.client.ready.reliable .flush trivial
    exact ⟨rc, { σ.client.s with net := net }, by
      simp only [tntFlush, hcall, bind, Option.bind_some, pure], hzero⟩
  · refine h.flow.all (fun c hc => (h.fits c hc).1) ?_ hwaits
    rw [hend, StreamNet.log, Iob.front, hoff, List.take_zero, List.append_nil]
  · refine List.forall₂_iff_get.mpr ⟨h.client.told.length_eq, fun i hi hi' => ?_⟩
    have hread := (List.forall₂_iff_get.mp h.client.told).2 i hi hi'
    have hmem : σ.client.read.get ⟨i, hi⟩ ∈ σ.client.arrived :=
      List.mem_of_mem_take (List.get_mem _ _)
    obtain ⟨-, c, hc, hsync⟩ := h.echoed _ hmem
    exact ⟨hread, c, hc, hread.tells.sync.trans hsync⟩
  · exact (finalsOf_read_le k σ.client).trans (h.finalsOf_le k)

/-- **A session**, in every state of every run: whatever the client calls, however the transport
cuts up what it carries, in whatever order the server answers.  The steps of client, network and
server interleave freely, so the theorem is an invariant and an induction over events; nothing is
assumed about fairness, and a run may stop anywhere. -/
theorem session_orderly [Msgpuck] {alloc : Nat → Bool} (halloc : ∀ n, alloc n = true) {σ₀ σ : Sys}
    (hstart : Start σ₀) (hrun : Run alloc σ₀ σ) : Orderly σ := by
  have h := Run.inv halloc hstart hrun
  exact h.orderly

end Result

/-! A ping with the number 7, to which the server answers with an error. -/

def pingStart : Sys where
  client := { freshSys with s := { freshSys.s with reqid := 7 } }
  calls := []
  numbers := 0
  delivered := 0
  inbox := []
  requests := []

/-- A session that starts, ... -/
theorem pingStart_start : Start pingStart where
  client := ⟨freshSys_start.ready, rfl, rfl, rfl, rfl, rfl, rfl, rfl⟩
  iovmax := Nat.le_refl 16
  off := rfl
  calls := rfl
  numbers := rfl
  delivered := rfl
  inbox := rfl
  requests := rfl

def pingWire : Bytes := [0xce, 0, 0, 0, 6, 0x82, 0x00, 0x40, 0x01, 0x07, 0x80]

/-- ... a request the server takes, ... -/
theorem pingWire_take : takeMessage pingWire = some (packageWire .ping 7 [], []) :=
  takeMessage_eq_some.mpr ⟨[0xce, 0, 0, 0, 6], by decide, encodes_uint_five (by decide)⟩

/-- The stream behind the call. -/
def pingSent : TntStream where
  wrcnt := 1
  reqid := 8
  net := { pingStart.client.s.net with
    io := { pingStart.client.s.net.io with accepted := pingWire, clock := 4 } }

/-- ... and a run with both to its end. -/
theorem session_orderly_ping :
    ∃ σ, @Run Msgpuck.reference zeroDigest (fun _ => true) pingStart σ ∧ σ.client.s.wrcnt = 0 ∧
      σ.calls.length = 1 ∧ finalsOf 0 σ.client.read = 1 := by
  let _ := Msgpuck.reference
  let _ := zeroDigest
  have hcall := @Step.call Msgpuck.reference zeroDigest (fun _ => true) pingStart .ping _ 11 pingSent
    ⟨trivial, by decide⟩ (by decide) rfl rfl (by decide)
  have hdeliver := Relation.ReflTransGen.tail (.single hcall)
    (@Step.deliver Msgpuck.reference zeroDigest (fun _ => true) _ 11 (by decide))
  have htake := hdeliver.tail
    (@Step.take Msgpuck.reference zeroDigest (fun _ => true) _ _ [] pingWire_take)
  have hreply := htake.tail
    (@Step.reply Msgpuck.reference zeroDigest (fun _ => true) _ errorArrival _ .ping []
      (List.mem_singleton_self _) rfl (packageWire_decodes .ping (by decide) .nil (by decide)))
  have hinv := Run.inv (fun _ => rfl) pingStart_start hreply
  obtain ⟨r, s', hnext, -, -, -, hdown⟩ := @tntNext_spec _ (fun _ => true) (fun _ => rfl) _
    hinv.client.ready (by decide) hinv.client.small errorArrival [] hinv.client.flow tntIterReply
  have hlast := hreply.tail
    (@Step.next Msgpuck.reference zeroDigest (fun _ => true) _ 1 _ s' (fun _ => List.cons_ne_nil _ _)
      hnext)
  have hzero : s'.wrcnt = 0 := Nat.add_right_cancel hdown
  have hdone := (session_orderly (fun _ => rfl) pingStart_start hlast).done hzero
  exact ⟨_, hlast, hzero, rfl, hdone.2 0 Nat.one_pos⟩

end TarantoolC.Session
