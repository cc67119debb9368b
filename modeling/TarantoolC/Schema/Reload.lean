/-
# TarantoolC.Schema.Reload — loading the schema over the network (`tnt_reload_schema`).

The function pipelines two selects, with the request numbers 127 and 128, and reads replies as long
as any is outstanding.  The reply to 127 goes into the schema at once; the reply to 128 needs the
spaces, so one that comes too early is put aside (`bkp`) until the loop is over.  `sloaded` says in
its two bits what has been loaded.

`reload_loaded` says what a reload that returns 0 leaves in the schema, on any transport;
`reload_in_step_iff` what a reload does to the connection when a server answers and nothing fails;
`reload_reqid_iff` what becomes of the request counter.

## The layers

* `Conn` and its calls: loads, lookups, requests, receiving, closing.  `Reached` lists the
  connections they lead to, and `Conn.Inv` is what all of them keep: buffers in order, and pointers
  of the schema that point to records.
* Two replies on their way (`Coming`, in either order; `SpaceReply`, `IndexReply`): what they hold
  as values, and what the loop makes of each.
* `reload_loaded`: from the last state of the loop back to the replies that must have been there.
* §5 the other way round: from replies that are on their way, and a transport that does not fail, to
  the last state of the loop.

The loop is given a turn for every byte to come, which is more than it can need, as a reply has at
least one byte.  Only what it returns is used, never that it ran out.
-/
import TarantoolC.Net
import TarantoolC.Object.Replay
import TarantoolC.Request.Direct
import TarantoolC.Schema.Answers

namespace TarantoolC.Schema

open MsgPack Msgpuck Proto Reply Io Net Object Request

/-! ## §1 — the code.

The two selects are those of `TarantoolC.Request.Direct`, with numbers of their own; the loop is
that of the reply iterator of `TarantoolC.Net`.  `sloaded` and `bkp` are variables of the loop, and
a reply that has been put aside is a reply that is loaded later, with what it held when it came. -/

/-- What a reload uses of `struct tnt_stream` and `struct tnt_stream_net`. -/
structure Conn where
  s : TntStream
  connected : Bool
  schema : TntSchema

/-- The answers of the allocator during a reload: for the stack of a key object (`none` if there is
no memory for it), for its data, for the buffers of replies, and for the names of spaces and indexes
by their length. -/
structure Memory where
  stack : Option (List SboStack)
  obj : ObjAllocator
  reply : Nat → Bool
  name : Nat → Bool

/-- The bytes `r->data … r->data_end`; none if `r->data` is `NULL`. -/
def dataOf (r : TntReply) : Bytes :=
  match r.buf, r.data with
  | some buf, some span => (buf.drop span.first).take (span.last - span.first)
  | _, _ => []

/-- `tnt_stream_reqid`: both the argument and the result are `uint32_t`. -/
def tntStreamReqid (s : TntStream) (reqid : UInt32) : UInt32 × TntStream :=
  (s.reqid.toUInt32, { s with reqid := reqid.toUInt64 })

/-- The end of a request function on a network stream. -/
def sendOn (s : TntStream) : Sent × UInt64 → Option (Int × TntStream)
  | (.refused, reqid) => some (-1, { s with reqid := reqid })
  | (.writev iov, reqid) => tntNetWritev { s with reqid := reqid } iov

section Code

variable [Msgpuck]

/-- `tnt_get_space` and `tnt_get_index`: a select of everything, by the index `tnt_vin_name`.  The
key is an empty array that is made for the call and freed behind it. -/
def selectAll (space : UInt32) (M : Memory) (s : TntStream) : Option (Int × TntStream) :=
  match M.stack with
  | none => some (-1, s)
  | some stack => do
    let (_, key) ← tntObjectAddArray M.obj (tntObject stack) 0
    let sent ← tntSelect s.reqid space 2 (UInt32.ofNat (2 ^ 32 - 1)) 0 2 key.s.sb
    sendOn s sent

/-- `tnt_get_space`: `tnt_vsp_space` is 281. -/
def tntGetSpace (M : Memory) (s : TntStream) : Option (Int × TntStream) := selectAll 281 M s

/-- `tnt_get_index`: `tnt_vsp_index` is 289. -/
def tntGetIndex (M : Memory) (s : TntStream) : Option (Int × TntStream) := selectAll 289 M s

/-- The first half of `tnt_reload_schema`; nobody looks at the results.  The counter of requests is
set to 127 for the first select, and the caller's is put back behind the second. -/
def askSchema (M : Memory) (s : TntStream) : Option TntStream := do
  let (oldsync, s) := tntStreamReqid s 127
  let (_, s) ← tntGetSpace M s
  let (_, s) ← tntGetIndex M s
  let (_, s) := tntStreamReqid s oldsync
  let (_, s) ← tntFlush s
  return s

/-- The variables of the second half. -/
structure Loading where
  s : TntStream
  it : IterReply
  schema : TntSchema
  sloaded : Nat
  bkp : TntReply

/-- The body of the loop: whether to go on (`false` is `goto error`), and the variables.  It is the
sync that tells the two replies apart; the data of an index reply that comes first is kept for
later. -/
def onReply (M : Memory) (l : Loading) : Option (Bool × Loading) :=
  let r := l.it.r
  if r.sync = 127 then
    if r.error.isSome then some (false, l)
    else do
      let (_, schema) ← tntSchemaAddSpaces M.name l.schema (dataOf r)
      return (true, { l with schema := schema, sloaded := l.sloaded + 1 })
  else if r.sync = 128 then
    if r.error.isSome then some (false, l)
    else if l.sloaded % 2 = 0 then
      some (true, { l with bkp := r, it := { l.it with r := { r with buf := none } } })
    else do
      let (_, schema) ← tntSchemaAddIndexes M.name l.schema (dataOf r)
      return (true, { l with schema := schema, sloaded := l.sloaded + 2 })
  else some (false, l)

/-- `while (tnt_next(&it)) { … }`.  The loop ends when no reply is outstanding or one cannot be
read.  The fuel is an upper bound for its turns. -/
def reloadLoop (M : Memory) : Nat → Loading → Option (Bool × Loading)
  | 0, _ => none
  | fuel + 1, l => do
    let (rv, it, s) ← tntNext M.reply l.it l.s
    let l := { l with it := it, s := s }
    if rv = 0 then some (true, l)
    else do
      let (goOn, l) ← onReply M l
      if goOn then reloadLoop M fuel l else some (false, l)

/-- `if (bkp.buf) { … }`. -/
def finishBkp (M : Memory) (l : Loading) : Option Loading :=
  if l.bkp.buf.isSome then do
    let (_, schema) ← tntSchemaAddIndexes M.name l.schema (dataOf l.bkp)
    return { l with schema := schema, sloaded := l.sloaded + 2 }
  else some l

/-- The second half of `tnt_reload_schema`, with a turn of the loop for every byte that is to
come. -/
def readSchema (M : Memory) (s : TntStream) (schema : TntSchema) : Option (Int × Loading) := do
  let (goOn, l) ← reloadLoop M (s.net.toCome.length + 1) ⟨s, tntIterReply, schema, 0, zeroReply⟩
  if goOn then do
    let l ← finishBkp M l
    return (if l.sloaded ≠ 3 then -1 else 0, l)
  else some (-1, l)

/-- `tnt_reload_schema`. -/
def tntReloadSchema (M : Memory) (c : Conn) : Option (Int × Conn) :=
  if !c.connected ∨ c.s.wrcnt ≠ 0 then some (-1, c)
  else do
    let s ← askSchema M c.s
    let (rc, l) ← readSchema M s c.schema
    return (rc, { c with s := l.s, schema := l.schema })

end Code

/-- A name as a lookup gets it: its length is a `size_t` that becomes a `uint32_t`. -/
def nameArg (name : Bytes) : Bytes := name.take (name.length % 2 ^ 32)

/-- `tnt_get_spaceno`. -/
def tntGetSpaceno (c : Conn) (name : Bytes) : Int := tntSchemaStosid c.schema (nameArg name)

/-- `tnt_get_indexno`: the `int` becomes a `uint32_t`. -/
def tntGetIndexno (c : Conn) (spaceno : Int32) (name : Bytes) : Int :=
  tntSchemaStoiid c.schema spaceno.toUInt32 (nameArg name)

/-- `tnt_close`. -/
def tntClose (c : Conn) : Conn :=
  { c with
    s := {
      wrcnt := 0
      reqid := 0
      net := { c.s.net with sbuf := tntIobClear c.s.net.sbuf, rbuf := tntIobClear c.s.net.rbuf } }
    connected := false }

/-- What a successful `tnt_io_connect` does: a transport of its own, which carries the bytes that
are going to come. -/
def connectedTo (c : Conn) (io : Transport UInt8) : Conn :=
  { c with s := { c.s with net := { c.s.net with io := io } }, connected := true }

section Runs

variable [Msgpuck]

/-- Connections as a program leaves them: a new one, with empty buffers and an empty schema; after a
write, a flush, a read of a reply, a change of the request number; closed, connected again; and
after a reload, however it ended. -/
inductive Reached : Conn → Prop
  | new (sblock rblock : Bytes) (txv : Bool) (iovmax : Nat) (move : Nat → Move) :
      Reached ⟨⟨0, 0, StreamNet.fresh sblock rblock [] txv iovmax move⟩, false, tntSchemaNew⟩
  | write {c : Conn} (h : Reached c) {op : SendOp UInt8} {rc : Int} {s : TntStream}
      (hcall : netWrite op c.s = some (rc, s)) : Reached { c with s := s }
  | flush {c : Conn} (h : Reached c) {rc : Int} {s : TntStream}
      (hcall : tntFlush c.s = some (rc, s)) : Reached { c with s := s }
  | next {c : Conn} (h : Reached c) {alloc : Nat → Bool} {i i' : IterReply} {rv : Int}
      {s : TntStream} (hcall : tntNext alloc i c.s = some (rv, i', s)) : Reached { c with s := s }
  | recv {c : Conn} (h : Reached c) {size : Nat} {rc : Int} {got : Bytes} {net : StreamNet UInt8}
      (hcall : tntIoRecv c.s.net size = some (rc, got, net)) :
      Reached { c with s := { c.s with net := net } }
  | reqid {c : Conn} (h : Reached c) (n : UInt64) : Reached { c with s := { c.s with reqid := n } }
  | close {c : Conn} (h : Reached c) : Reached (tntClose c)
  | connect {c : Conn} (h : Reached c) (io : Transport UInt8) : Reached (connectedTo c io)
  | reload {c c' : Conn} (h : Reached c) {M : Memory} {rc : Int}
      (hcall : tntReloadSchema M c = some (rc, c')) : Reached c'

end Runs

/-! ## §2 — what every call keeps.

A connection stays in order whatever arrives over it, a server's replies or not.  Each function of
the reload gets its frame: what it does to the stream, and that it leaves the pointers of the schema
valid. -/

/-- `s'` is `s` after at most one write that counts. -/
structure Wrote (s s' : TntStream) : Prop where
  frame : SendFrame s.net s'.net
  wrcnt : s'.wrcnt = s.wrcnt ∨ s'.wrcnt = (s.wrcnt + 1) % 2 ^ 32

/-- A write on the stream, ... -/
theorem netWrite_wrote {s s' : TntStream} (hs : s.net.sbuf.Sending) {op : SendOp UInt8} {rc : Int}
    (h : netWrite op s = some (rc, s')) : Wrote s s' := by
  simp only [netWrite, Option.bind_eq_bind, Option.bind_eq_some_iff] at h
  obtain ⟨⟨rc', net⟩, hsend, h⟩ := h
  have hframe := sendCall_frame hs hsend
  split_ifs at h with hrc
  · cases h
    exact ⟨hframe, Or.inr rfl⟩
  · cases h
    exact ⟨hframe, Or.inl rfl⟩

/-- ... a flush, ... -/
theorem tntFlush_wrote {s s' : TntStream} (hs : s.net.sbuf.Sending) {rc : Int}
    (h : tntFlush s = some (rc, s')) : SendFrame s.net s'.net ∧ s'.wrcnt = s.wrcnt := by
  simp only [tntFlush, Option.bind_eq_bind, Option.bind_eq_some_iff, pure, Option.some.injEq] at h
  obtain ⟨⟨rc', net⟩, hsend, h⟩ := h
  cases h
  exact ⟨sendCall_frame hs hsend, rfl⟩

section Keeps

variable [Msgpuck]

/-- ... and a select keep what there is to receive, and count one request at most. -/
theorem selectAll_wrote {space : UInt32} {M : Memory} {s s' : TntStream}
    (hs : s.net.sbuf.Sending) {rc : Int} (h : selectAll space M s = some (rc, s')) :
    Wrote s s' := by
  unfold selectAll at h
  split at h
  · cases h
    exact ⟨SendFrame.refl hs, Or.inl rfl⟩
  · simp only [Option.bind_eq_bind, Option.bind_eq_some_iff] at h
    obtain ⟨⟨rv, key⟩, -, ⟨sent, reqid⟩, -, h⟩ := h
    cases sent with
    | refused =>
      cases h
      exact ⟨SendFrame.refl hs, Or.inl rfl⟩
    | writev iov =>
      have hwrote := netWrite_wrote (s := { s with reqid := reqid }) hs h
      exact ⟨hwrote.frame, hwrote.wrcnt⟩

/-- The two selects touch neither what is to come nor the schema, and count for two at most.  A
write that fails does not count, which is why this is a bound and not a number. -/
theorem askSchema_wrote {M : Memory} {s s' : TntStream} (hs : s.net.sbuf.Sending)
    (h : askSchema M s = some s') :
    SendFrame s.net s'.net ∧ (s.wrcnt = 0 → s'.wrcnt ≤ 2) := by
  simp only [askSchema, tntStreamReqid, tntGetSpace, tntGetIndex, Option.bind_eq_bind,
    Option.bind_eq_some_iff, pure, Option.some.injEq] at h
  obtain ⟨⟨rc₁, s₁⟩, h₁, ⟨rc₂, s₂⟩, h₂, ⟨rc₃, s₃⟩, h₃, rfl⟩ := h
  have w₁ := selectAll_wrote (s := { s with reqid := 127 }) hs h₁
  have w₂ := selectAll_wrote w₁.frame.sending h₂
  obtain ⟨f₃, hcnt⟩ := tntFlush_wrote
    (s := { s₂ with reqid := s.reqid.toUInt32.toUInt64 }) w₂.frame.sending h₃
  refine ⟨(w₁.frame.trans w₂.frame).trans f₃, ?_⟩
  intro hzero
  have hc₁ : s₁.wrcnt = s.wrcnt ∨ s₁.wrcnt = (s.wrcnt + 1) % 2 ^ 32 := w₁.wrcnt
  have hc₂ := w₂.wrcnt
  have hc₃ : s₃.wrcnt = s₂.wrcnt := hcnt
  show s₃.wrcnt ≤ 2
  omega

/-- A turn of the loop does not touch the stream, ... -/
theorem onReply_keeps {M : Memory} {l l' : Loading} {goOn : Bool} (h : onReply M l = some (goOn, l')) :
    l'.s = l.s ∧ (l.schema.WF → l'.schema.WF) := by
  unfold onReply at h
  dsimp only at h
  split at h
  · split at h
    · cases h
      exact ⟨rfl, id⟩
    · simp only [Option.bind_eq_bind, Option.bind_eq_some_iff, pure, Option.some.injEq] at h
      obtain ⟨⟨rc, schema⟩, hadd, h⟩ := h
      cases h
      exact ⟨rfl, fun hwf => tntSchemaAddSpaces_wf hwf hadd⟩
  · split at h
    · split at h
      · cases h
        exact ⟨rfl, id⟩
      · split at h
        · cases h
          exact ⟨rfl, id⟩
        · simp only [Option.bind_eq_bind, Option.bind_eq_some_iff, pure, Option.some.injEq] at h
          obtain ⟨⟨rc, schema⟩, hadd, h⟩ := h
          cases h
          exact ⟨rfl, fun hwf => tntSchemaAddIndexes_wf hwf hadd⟩
    · cases h
      exact ⟨rfl, id⟩

/-- ... nor does what comes behind it. -/
theorem finishBkp_keeps {M : Memory} {l l' : Loading} (h : finishBkp M l = some l') :
    l'.s = l.s ∧ (l.schema.WF → l'.schema.WF) := by
  unfold finishBkp at h
  split_ifs at h
  · simp only [Option.bind_eq_bind, Option.bind_eq_some_iff, pure, Option.some.injEq] at h
    obtain ⟨⟨rc, schema⟩, hadd, h⟩ := h
    cases h
    exact ⟨rfl, fun hwf => tntSchemaAddIndexes_wf hwf hadd⟩
  · cases h
    exact ⟨rfl, id⟩

/-- What holds of every connection. -/
structure Conn.Inv (c : Conn) : Prop where
  rbuf : c.s.net.rbuf.WF
  sending : c.s.net.sbuf.Sending
  schema : c.schema.WF

/-- The loop keeps the buffers and the schema in order, however it ends.  By induction on the fuel;
nothing is assumed of what the server sends. -/
theorem reloadLoop_keeps {M : Memory} {fuel : Nat} {l l' : Loading} {goOn : Bool}
    (hrbuf : l.s.net.rbuf.WF) (hwf : l.schema.WF)
    (h : reloadLoop M fuel l = some (goOn, l')) :
    l'.s.net.rbuf.WF ∧ l'.s.net.sbuf = l.s.net.sbuf ∧ l'.schema.WF := by
  induction fuel generalizing l with
  | zero => exact absurd h (by simp [reloadLoop])
  | succ fuel ih =>
    simp only [reloadLoop, Option.bind_eq_bind, Option.bind_eq_some_iff] at h
    obtain ⟨⟨rv, it, s⟩, hnext, h⟩ := h
    obtain ⟨hrbuf₁, hsbuf₁, -⟩ := tntNext_cases hrbuf hnext
    split_ifs at h with hrv
    · cases h
      exact ⟨hrbuf₁, hsbuf₁, hwf⟩
    · obtain ⟨⟨goOn₁, l₁⟩, hon, h⟩ := Option.bind_eq_some_iff.mp h
      obtain ⟨hs₁, hwf₁⟩ := onReply_keeps hon
      split_ifs at h with hgo
      · obtain ⟨hrbuf₂, hsbuf₂, hwf₂⟩ := ih (by rw [hs₁]; exact hrbuf₁) (hwf₁ hwf) h
        rw [hs₁] at hsbuf₂
        exact ⟨hrbuf₂, hsbuf₂.trans hsbuf₁, hwf₂⟩
      · cases h
        rw [hs₁]
        exact ⟨hrbuf₁, hsbuf₁, hwf₁ hwf⟩

/-- So a reload keeps the connection in order, whatever has arrived.  This is the step lemma for
`Reached`: the invariant is all that is known of a connection on which anything may have happened
before. -/
theorem tntReloadSchema_keeps {M : Memory} {c c' : Conn} (hinv : c.Inv) {rc : Int}
    (h : tntReloadSchema M c = some (rc, c')) : c'.Inv := by
  unfold tntReloadSchema at h
  split_ifs at h with hguard
  · cases h
    exact hinv
  · simp only [readSchema, Option.bind_eq_bind, Option.bind_eq_some_iff, pure,
      Option.some.injEq] at h
    obtain ⟨s, hask, ⟨rc', l⟩, ⟨⟨goOn, l₁⟩, hloop, hend⟩, h⟩ := h
    cases h
    obtain ⟨hframe, -⟩ := askSchema_wrote hinv.sending hask
    obtain ⟨hrbuf, hsbuf, hwf⟩ := reloadLoop_keeps (by rw [hframe.rbuf]; exact hinv.rbuf)
      hinv.schema hloop
    have hsending : l₁.s.net.sbuf.Sending := by
      rw [hsbuf]
      exact hframe.sending
    split_ifs at hend with hgo
    · obtain ⟨l₂, hfin, hend⟩ := Option.bind_eq_some_iff.mp hend
      cases hend
      obtain ⟨hs₂, hwf₂⟩ := finishBkp_keeps hfin
      exact ⟨by rw [hs₂]; exact hrbuf, by rw [hs₂]; exact hsending, hwf₂ hwf⟩
    · cases hend
      exact ⟨hrbuf, hsending, hwf⟩

/-- **Every connection a program can get to is in order.**  By induction on how it got there; a
reload is one of the ways, with any reply to it. -/
theorem Reached.inv {c : Conn} (h : Reached c) : c.Inv := by
  induction h with
  | new sblock rblock txv iovmax move =>
    exact ⟨tntIobInit_wf _ _, ⟨(tntIobInit_wf sblock txv).sized, Nat.zero_le _⟩, tntSchemaNew_wf⟩
  | write h hcall ih =>
    have hframe := (netWrite_wrote ih.sending hcall).frame
    exact ⟨by rw [hframe.rbuf]; exact ih.rbuf, hframe.sending, ih.schema⟩
  | flush h hcall ih =>
    obtain ⟨hframe, -⟩ := tntFlush_wrote ih.sending hcall
    exact ⟨by rw [hframe.rbuf]; exact ih.rbuf, hframe.sending, ih.schema⟩
  | next h hcall ih =>
    obtain ⟨hrbuf, hsbuf, -⟩ := tntNext_cases ih.rbuf hcall
    exact ⟨hrbuf, by rw [hsbuf]; exact ih.sending, ih.schema⟩
  | recv h hcall ih =>
    obtain ⟨hrbuf, hsbuf, -⟩ := tntIoRecv_cases ih.rbuf hcall
    exact ⟨hrbuf, by rw [hsbuf]; exact ih.sending, ih.schema⟩
  | reqid h n ih => exact ⟨ih.rbuf, ih.sending, ih.schema⟩
  | close h ih =>
    exact ⟨⟨ih.rbuf.sized, le_rfl, Nat.zero_le _⟩, ⟨ih.sending.sized, Nat.zero_le _⟩, ih.schema⟩
  | connect h io ih => exact ⟨ih.rbuf, ih.sending, ih.schema⟩
  | reload h hcall ih => exact tntReloadSchema_keeps ih hcall

end Keeps

/-! ## §3 — replies to the two selects.

What a reply says is in its header and under its last `TNT_DATA`.  `Answers` is a reply with rows
for the select with a given number, `Refuses` one with an error; both are about the bytes, and both
are final. -/

/-- A reply with data: `rows`, under the last `TNT_DATA`. -/
structure Answers (w : WireReply) (sync : Nat) (rows : List Value) : Prop where
  sync : lastNum .sync w.hdr.pairs = sync
  code : w.code = 0
  noError : ¬ w.HasError
  data : ∃ m pre p, w.body = some m ∧ lastPair ResponseKey.data.num m.pairs = some (pre, p) ∧
    p.val = .array rows

/-- A reply with an error. -/
structure Refuses (w : WireReply) (sync : Nat) : Prop where
  sync : lastNum .sync w.hdr.pairs = sync
  code : ∃ errno, w.code = 0x8000 ||| errno
  hasError : w.HasError

/-- A reply with data ends the exchange, ... -/
theorem Answers.isFinal {w : WireReply} {sync : Nat} {rows : List Value} (h : Answers w sync rows) :
    w.IsFinal := Or.inl h.code

/-- ... and so does one with an error. -/
theorem Refuses.isFinal {w : WireReply} {sync : Nat} (h : Refuses w sync) : w.IsFinal := by
  obtain ⟨errno, hcode⟩ := h.code
  exact Or.inr ⟨errno, hcode, h.hasError⟩

/-- The bytes under the last `TNT_DATA`. -/
def wireData (w : WireReply) : Bytes :=
  match w.body with
  | none => []
  | some m => match lastPair ResponseKey.data.num m.pairs with
    | none => []
    | some (_, p) => p.valBytes

/-- What is loaded is what the reply has under its last `TNT_DATA`.  A reply in which the key occurs
twice has the later data. -/
theorem dataOf_eq {w : WireReply} {r : TntReply} (hr : w.ReadAs r) : dataOf r = wireData w := by
  have hfinds := hr.tells.data
  unfold wireData
  cases hbody : w.body with
  | none =>
    rw [hbody] at hfinds
    have hnone : r.data = none := hfinds
    simp only [dataOf, hr.buf, hnone]
  | some m =>
    rw [hbody] at hfinds
    cases hlast : lastPair ResponseKey.data.num m.pairs with
    | none =>
      simp only [Finds, hlast] at hfinds
      simp only [dataOf, hr.buf, hfinds, hlast]
    | some at' =>
      simp only [Finds, hlast] at hfinds
      obtain ⟨span, hspan, -, -, hslice⟩ := hfinds
      simp only [dataOf, hr.buf, hspan, hlast]
      exact hslice

/-- The rows are what the reply's data encodes. -/
theorem Answers.encodes {w : WireReply} {sync : Nat} {rows : List Value}
    (h : Answers w sync rows) : Encodes (.array rows) (wireData w) := by
  obtain ⟨m, pre, p, hbody, hlast, hval⟩ := h.data
  have hdata : wireData w = p.valBytes := by simp only [wireData, hbody, hlast]
  rw [hdata, ← hval]
  exact p.val_encodes

/-- A reply with data is read as one. -/
theorem Answers.no_error {w : WireReply} {sync : Nat} {rows : List Value} (h : Answers w sync rows)
    {r : TntReply} (hr : w.ReadAs r) : ¬ r.error.isSome :=
  fun herr => h.noError (hr.error_isSome_iff.mp herr)

section Turns

variable [Msgpuck] {M : Memory} {w : WireReply} {l : Loading} {spaces : List SpaceRow}
  {indexes : List IndexRow}

/-- The spaces have come.  The result of `tnt_schema_add_spaces` is not looked at: rows that were
refused are missing, and the loop goes on as if all had been added. -/
theorem onReply_spaces (h : Answers w 127 (spaces.map SpaceRow.value)) (hr : w.ReadAs l.it.r) :
    onReply M l = some (true, { l with
      schema := addSpaces l.schema (spaceTable M.name spaces), sloaded := l.sloaded + 1 }) := by
  have hsync : l.it.r.sync = 127 := hr.tells.sync.trans h.sync
  have hadd := tntSchemaAddSpaces_spec M.name l.schema h.encodes
  simp only [onReply, if_pos hsync, if_neg (h.no_error hr), dataOf_eq hr, hadd, Option.bind_eq_bind,
    Option.bind_some, pure]
  rfl

/-- The indexes have come, and the spaces not yet.  An index cannot be added before its space is
there, so the reply is put aside.  The iterator gives its memory up, or the next turn would free it.
-/
theorem onReply_indexes_early (h : Answers w 128 (indexes.map IndexRow.value))
    (hr : w.ReadAs l.it.r) (heven : l.sloaded % 2 = 0) :
    onReply M l = some (true, { l with
      bkp := l.it.r, it := { l.it with r := { l.it.r with buf := none } } }) := by
  have hsync : l.it.r.sync = 128 := hr.tells.sync.trans h.sync
  have hne : ¬ l.it.r.sync = 127 := by omega
  simp only [onReply, if_neg hne, if_pos hsync, if_neg (h.no_error hr), if_pos heven]

/-- The indexes have come after the spaces.  Again the result is not looked at. -/
theorem onReply_indexes (h : Answers w 128 (indexes.map IndexRow.value)) (hr : w.ReadAs l.it.r)
    (hodd : l.sloaded % 2 = 1) {rc : Int} {schema : TntSchema}
    (hadd : tntSchemaAddIndexes M.name l.schema (wireData w) = some (rc, schema)) :
    onReply M l = some (true, { l with schema := schema, sloaded := l.sloaded + 2 }) := by
  have hsync : l.it.r.sync = 128 := hr.tells.sync.trans h.sync
  have hne : ¬ l.it.r.sync = 127 := by omega
  have hodd' : ¬ l.sloaded % 2 = 0 := by omega
  simp only [onReply, if_neg hne, if_pos hsync, if_neg (h.no_error hr), if_neg hodd',
    dataOf_eq hr, hadd, Option.bind_eq_bind, Option.bind_some, pure]

/-- An error has come. -/
theorem onReply_error {sync : Nat} (h : Refuses w sync) (hr : w.ReadAs l.it.r) :
    onReply M l = some (false, l) := by
  have herr : l.it.r.error.isSome := hr.error_isSome_iff.mpr h.hasError
  simp only [onReply, if_pos herr]
  split_ifs <;> rfl

/-- One turn of the loop. -/
theorem reloadLoop_turn {M : Memory} {fuel : Nat} {l₁ : Loading} {rv : Int} {it : IterReply}
    {s : TntStream} (hnext : tntNext M.reply l.it l.s = some (rv, it, s)) (hrv : rv ≠ 0)
    {goOn : Bool} (hon : onReply M { l with it := it, s := s } = some (goOn, l₁)) :
    reloadLoop M (fuel + 1) l =
      if goOn then reloadLoop M fuel l₁ else some (false, l₁) := by
  simp only [reloadLoop, hnext, Option.bind_eq_bind, Option.bind_some, if_neg hrv, hon]

/-- The last turn. -/
theorem reloadLoop_end {M : Memory} {fuel : Nat} {it : IterReply}
    {s : TntStream} (hnext : tntNext M.reply l.it l.s = some (0, it, s)) :
    reloadLoop M (fuel + 1) l = some (true, { l with it := it, s := s }) := by
  simp only [reloadLoop, hnext, Option.bind_eq_bind, Option.bind_some, if_true]

/-- Nothing outstanding: the loop is over. -/
theorem reloadLoop_over {M : Memory} {fuel : Nat} (hcnt : l.s.wrcnt = 0) :
    reloadLoop M (fuel + 1) l = some (true, { l with it := { l.it with r := zeroReply } }) :=
  reloadLoop_end (tntNext_end M.reply hcnt l.it)

/-- A turn that has come to its end: it was the last one, or it has read something.  It inverts the
loop: later proofs go through its cases, one per turn. -/
theorem reloadLoop_cases {M : Memory} {fuel : Nat} (hrbuf : l.s.net.rbuf.WF) {l' : Loading}
    {goOn : Bool} (h : reloadLoop M fuel l = some (goOn, l')) :
    ∃ fuel' it s, fuel = fuel' + 1 ∧ s.net.rbuf.WF ∧
      (l' = { l with it := it, s := s } ∨
        ∃ rv, rv ≠ 0 ∧ tntNext M.reply l.it l.s = some (rv, it, s) ∧ NextRead l.s it.r s) := by
  cases fuel with
  | zero => exact absurd h (by simp [reloadLoop])
  | succ fuel =>
    cases hnext : tntNext M.reply l.it l.s with
    | none => simp [reloadLoop, hnext] at h
    | some p =>
      obtain ⟨rv, it, s⟩ := p
      obtain ⟨hrbuf', -, hread⟩ := tntNext_cases hrbuf hnext
      refine ⟨fuel, it, s, rfl, hrbuf', ?_⟩
      by_cases hrv : rv = 0
      · left
        subst hrv
        rw [reloadLoop_end hnext] at h
        cases h
        rfl
      · exact Or.inr ⟨rv, hrv, rfl, hread hrv⟩

/-- Without a reply put aside there is nothing left to do. -/
theorem finishBkp_none (h : l.bkp = zeroReply) : finishBkp M l = some l := by
  simp [finishBkp, h, zeroReply]

/-- With one, its rows are added. -/
theorem finishBkp_some (hr : w.ReadAs l.bkp) {rc : Int} {schema : TntSchema}
    (hadd : tntSchemaAddIndexes M.name l.schema (wireData w) = some (rc, schema)) :
    finishBkp M l = some { l with schema := schema, sloaded := l.sloaded + 2 } := by
  have hbuf : l.bkp.buf.isSome := by rw [hr.buf]; rfl
  simp only [finishBkp, if_pos hbuf, dataOf_eq hr, hadd, Option.bind_eq_bind, Option.bind_some, pure]

end Turns

/-! ## §4 — a reload that returns 0.

From the result backwards: 0 is returned only with both bits of `sloaded` set, so both replies have
come and neither was an error; in whichever order, the spaces were loaded first. -/

section Loaded

variable [Msgpuck] {M : Memory} {ws wi : WireReply} {spaces : List SpaceRow}
  {indexes : List IndexRow}

/-- What the loop must have left if the call is to return 0.  The number 3 is both bits of
`sloaded`, one for each reply. -/
theorem readSchema_success {s : TntStream} {schema : TntSchema} {l : Loading}
    (h : readSchema M s schema = some (0, l)) :
    ∃ l₁, reloadLoop M (s.net.toCome.length + 1) ⟨s, tntIterReply, schema, 0, zeroReply⟩ =
        some (true, l₁) ∧ finishBkp M l₁ = some l ∧ l.sloaded = 3 := by
  simp only [readSchema, Option.bind_eq_bind, Option.bind_eq_some_iff] at h
  obtain ⟨⟨goOn, l₁⟩, hloop, h⟩ := h
  cases goOn with
  | false => exact absurd h (by simp)
  | true =>
    obtain ⟨l₂, hfin, h⟩ := Option.bind_eq_some_iff.mp h
    simp only [pure, Option.some.injEq, Prod.mk.injEq] at h
    obtain ⟨hrc, rfl⟩ := h
    refine ⟨l₁, hloop, hfin, ?_⟩
    by_contra hne
    rw [if_pos hne] at hrc
    exact absurd hrc (by decide)

/-- The spaces come first.  Two turns of the loop and nothing behind it.  A third reply is not read,
since `wrcnt` is at most 2 at the start. -/
theorem readSchema_loaded_spaces {s : TntStream} (hrbuf : s.net.rbuf.WF) (hcnt : s.wrcnt ≤ 2)
    (hs : Answers ws 127 (spaces.map SpaceRow.value))
    (hi : Answers wi 128 (indexes.map IndexRow.value)) {rest : Bytes}
    (hcome : s.net.toCome = ws.bytes ++ (wi.bytes ++ rest)) {schema : TntSchema} {l : Loading}
    (h : readSchema M s schema = some (0, l)) : l.schema = loaded M.name schema spaces indexes := by
  obtain ⟨l', hloop, hfin, hthree⟩ := readSchema_success h
  obtain ⟨fuel₁, it₁, s₁, hfuel₁, hrbuf₁, rfl | ⟨rv₁, hrv₁, hnext₁, hread₁⟩⟩ :=
    reloadLoop_cases hrbuf hloop
  · -- nothing has been read
    rw [finishBkp_none rfl] at hfin
    cases hfin
    exact absurd hthree (by simp)
  obtain ⟨hr₁, hcome₁⟩ := hread₁.readAs hcome
  have hcnt₁ : s₁.wrcnt = s.wrcnt - 1 :=
    hread₁.count hr₁ hs.isFinal (Nat.lt_of_le_of_lt hcnt (by decide))
  rw [hfuel₁, reloadLoop_turn hnext₁ hrv₁ (onReply_spaces hs hr₁), if_pos rfl] at hloop
  obtain ⟨fuel₂, it₂, s₂, hfuel₂, hrbuf₂, rfl | ⟨rv₂, hrv₂, hnext₂, hread₂⟩⟩ :=
    reloadLoop_cases hrbuf₁ hloop
  · -- the spaces alone have been read
    rw [finishBkp_none rfl] at hfin
    cases hfin
    exact absurd hthree (by simp)
  obtain ⟨hr₂, -⟩ := hread₂.readAs hcome₁
  have hout₂ : s₁.wrcnt ≠ 0 := hread₂.outstanding
  have hcnt₂ : s₂.wrcnt = s₁.wrcnt - 1 := hread₂.count hr₂ hi.isFinal (by show s₁.wrcnt < _; omega)
  -- the indexes find their spaces, which are there already
  obtain ⟨rc, hadd⟩ := tntSchemaAddIndexes_loaded M.name schema spaces hi.encodes
  rw [hfuel₂, reloadLoop_turn hnext₂ hrv₂ (onReply_indexes hi hr₂ rfl hadd), if_pos rfl] at hloop
  obtain ⟨fuel₃, -, -, hfuel₃, -, -⟩ := reloadLoop_cases hrbuf₂ hloop
  -- two replies were asked for, and both have come
  rw [hfuel₃, reloadLoop_over (by show s₂.wrcnt = 0; omega)] at hloop
  cases hloop
  rw [finishBkp_none rfl] at hfin
  cases hfin
  rfl

/-- The indexes come first.  The first turn puts the indexes aside, the second adds the spaces, and
what was put aside is added behind the loop. -/
theorem readSchema_loaded_indexes {s : TntStream} (hrbuf : s.net.rbuf.WF) (hcnt : s.wrcnt ≤ 2)
    (hs : Answers ws 127 (spaces.map SpaceRow.value))
    (hi : Answers wi 128 (indexes.map IndexRow.value)) {rest : Bytes}
    (hcome : s.net.toCome = wi.bytes ++ (ws.bytes ++ rest)) {schema : TntSchema} {l : Loading}
    (h : readSchema M s schema = some (0, l)) : l.schema = loaded M.name schema spaces indexes := by
  obtain ⟨l', hloop, hfin, hthree⟩ := readSchema_success h
  obtain ⟨fuel₁, it₁, s₁, hfuel₁, hrbuf₁, rfl | ⟨rv₁, hrv₁, hnext₁, hread₁⟩⟩ :=
    reloadLoop_cases hrbuf hloop
  · rw [finishBkp_none rfl] at hfin
    cases hfin
    exact absurd hthree (by simp)
  obtain ⟨hr₁, hcome₁⟩ := hread₁.readAs hcome
  have hcnt₁ : s₁.wrcnt = s.wrcnt - 1 :=
    hread₁.count hr₁ hi.isFinal (Nat.lt_of_le_of_lt hcnt (by decide))
  rw [hfuel₁, reloadLoop_turn hnext₁ hrv₁ (onReply_indexes_early hi hr₁ rfl), if_pos rfl] at hloop
  obtain ⟨fuel₂, it₂, s₂, hfuel₂, hrbuf₂, rfl | ⟨rv₂, hrv₂, hnext₂, hread₂⟩⟩ :=
    reloadLoop_cases hrbuf₁ hloop
  · -- the indexes alone have been read, and are in the way of nothing
    obtain ⟨rc, schema', hadd⟩ := tntSchemaAddIndexes_total M.name schema hi.encodes
    rw [finishBkp_some hr₁ hadd] at hfin
    cases hfin
    exact absurd hthree (by simp)
  obtain ⟨hr₂, -⟩ := hread₂.readAs hcome₁
  have hout₂ : s₁.wrcnt ≠ 0 := hread₂.outstanding
  have hcnt₂ : s₂.wrcnt = s₁.wrcnt - 1 := hread₂.count hr₂ hs.isFinal (by show s₁.wrcnt < _; omega)
  rw [hfuel₂, reloadLoop_turn hnext₂ hrv₂ (onReply_spaces hs hr₂), if_pos rfl] at hloop
  obtain ⟨fuel₃, -, -, hfuel₃, -, -⟩ := reloadLoop_cases hrbuf₂ hloop
  rw [hfuel₃, reloadLoop_over (by show s₂.wrcnt = 0; omega)] at hloop
  cases hloop
  obtain ⟨rc, hadd⟩ := tntSchemaAddIndexes_loaded M.name schema spaces hi.encodes
  rw [finishBkp_some hr₁ hadd] at hfin
  cases hfin
  rfl

/-- The two replies are what is to come, in either order. -/
def Coming (ws wi : WireReply) (rest come : Bytes) : Prop :=
  come = ws.bytes ++ (wi.bytes ++ rest) ∨ come = wi.bytes ++ (ws.bytes ++ rest)

/-- **What a reload that returns 0 leaves in the schema**: the rows of both replies, on top of what
was there.  Of the memory of a reload, the answers for names say which rows get in. -/
theorem reload_loaded {M : Memory} {c c' : Conn} (hinv : c.Inv)
    (hs : Answers ws 127 (spaces.map SpaceRow.value))
    (hi : Answers wi 128 (indexes.map IndexRow.value)) {rest : Bytes}
    (hcome : Coming ws wi rest c.s.net.toCome) (h : tntReloadSchema M c = some (0, c')) :
    c'.schema = loaded M.name c.schema spaces indexes := by
  unfold tntReloadSchema at h
  split_ifs at h with hguard
  · exact absurd h (by simp)
  · have hzero : c.s.wrcnt = 0 := by
      by_contra hne
      exact hguard (Or.inr hne)
    simp only [Option.bind_eq_bind, Option.bind_eq_some_iff, pure, Option.some.injEq] at h
    obtain ⟨s, hask, ⟨rc, l⟩, hread, h⟩ := h
    cases h
    obtain ⟨hframe, hcnt⟩ := askSchema_wrote hinv.sending hask
    have hrbuf : s.net.rbuf.WF := by
      rw [hframe.rbuf]
      exact hinv.rbuf
    rcases hcome with hcome | hcome
    · exact readSchema_loaded_spaces hrbuf (hcnt hzero) hs hi
        ((toCome_of_frame hframe).trans hcome) hread
    · exact readSchema_loaded_indexes hrbuf (hcnt hzero) hs hi
        ((toCome_of_frame hframe).trans hcome) hread

end Loaded

/-! ## §5 — a server that answers, and nothing that fails.

From the replies forwards.  The hypotheses of `Prepared` are those under which the reload gets as
far as the loop: the selects are taken, the transport delivers, there is memory for two keys and two
replies. -/

/-- A reply to the select from `_vspace`. -/
def SpaceReply (w : WireReply) : Prop :=
  (∃ spaces : List SpaceRow, Answers w 127 (spaces.map SpaceRow.value)) ∨ Refuses w 127

/-- A reply to the select from `_vindex`. -/
def IndexReply (w : WireReply) : Prop :=
  (∃ indexes : List IndexRow, Answers w 128 (indexes.map IndexRow.value)) ∨ Refuses w 128

/-- Both kinds of replies end the exchange: with spaces ... -/
theorem SpaceReply.isFinal {w : WireReply} (h : SpaceReply w) : w.IsFinal := by
  rcases h with ⟨spaces, h⟩ | h
  · exact h.isFinal
  · exact h.isFinal

/-- ... and with indexes. -/
theorem IndexReply.isFinal {w : WireReply} (h : IndexReply w) : w.IsFinal := by
  rcases h with ⟨indexes, h⟩ | h
  · exact h.isFinal
  · exact h.isFinal

section Served

variable [Msgpuck]

/-- An idle connection whose two selects get to the server, a transport that does not fail, memory
for the replies. -/
structure Prepared (M : Memory) (c : Conn) : Prop where
  ready : Ready c.s.net
  connected : c.connected = true
  idle : c.s.wrcnt = 0
  memory : ∀ n, M.reply n = true
  asked : ∃ s, askSchema M c.s = some s ∧ s.wrcnt = 2

/-- The memory lasts. -/
structure Memory.Lasts (M : Memory) : Prop where
  stack : ∃ stack, M.stack = some stack ∧ stack.length = 8
  obj : M.obj.Succeeds
  reply : ∀ n, M.reply n = true

/-- The key of both selects is an empty array.  `[]`, a key that matches every tuple. -/
theorem tntObjectAddArray_empty {A : ObjAllocator} (hA : A.Succeeds) {stack : List SboStack}
    (hstack : stack.length = 8) :
    ∃ rv key, tntObjectAddArray A (tntObject stack) 0 = some (rv, key) ∧
      key.s.sb.bytes = [0x90] := by
  have hwf := tntObject_wf hstack
  have hlen : 0 < stack.length := by omega
  have hone : (mpEncodeArray 0).length = 1 := by rw [mpEncodeArray_eq]; rfl
  set o : Obj := { tntObject stack with
    stack := stack.set 0 ⟨0, 0, .array⟩
    stackSize := 1 } with ho
  have hwf₁ : o.WF :=
    ⟨hwf.buf, by rw [ho, List.length_set]; exact hstack, hwf.alloc_ge, (by decide : 1 ≤ 8)⟩
  have hpos : 0 < (mpEncodeArray 0).length := by omega
  obtain ⟨rv, key, hwrite, -, -, -, hbuild⟩ := write_yields hA hwf₁ hpos
  refine ⟨rv, key, ?_, ?_⟩
  · rw [← hwrite]
    simp only [tntObjectAddArray, addContainer, tntObject, tntObjectType, tntBuf, countChild]
    simp [hlen, ho, tntObject, tntObjectType, tntBuf]
  · have hbytes : key.bytes = o.bytes ++ mpEncodeArray 0 := congrArg Build.bytes hbuild
    rw [mpEncodeArray_eq] at hbytes
    exact hbytes

/-- A select of everything is no longer than 64 bytes.  This is why the results hold for every send
buffer from 64 bytes on. -/
theorem selectAll_iov {reqid : UInt64} {space : UInt32} {key : StreamBuf}
    (hkey : key.bytes = [0x90]) :
    ∃ iov, tntSelect reqid space 2 (UInt32.ofNat (2 ^ 32 - 1)) 0 2 key =
        some (.writev iov, reqid + 1) ∧ iov.flatten.length ≤ 64 := by
  have harray : IsArray key :=
    ⟨[], by rw [hkey]; exact encodes_encodeWith packed_sound (.array []) ⟨by decide, trivial⟩⟩
  obtain ⟨v, hsend, hflat⟩ := @tntSelect_sends _ zeroDigest reqid space 2
    (UInt32.ofNat (2 ^ 32 - 1)) 0 2 key harray
  refine ⟨_, hsend, ?_⟩
  have hheader := headerBytes_length_le .select reqid
  have hspace := mpEncodeUint_uint32_length space
  rw [headerBytes_eq] at hheader
  rw [mpEncodeUint_uint32] at hspace
  -- a header of 13 bytes; six keys of one byte, and their values
  have hpackage : v.flatten.length ≤ 46 := by
    rw [hflat, packageWire, bodyWire_eq]
    simp only [Direct.fields, numField, objectField, Payload.wire, hkey, List.map_cons,
      List.map_nil, List.flatten_cons, List.flatten_nil, List.length_append, List.length_cons,
      List.length_nil]
    have hkeys : ∀ k : BodyKey, (encode (Value.uint k.num)).length = 1 := by
      intro k
      cases k <;> rfl
    have hmap : (mapForm.min (0 + 1 + 1 + 1 + 1 + 1 + 1)).length = 1 := rfl
    have hindex : (encode (Value.uint (UInt32.toNat 2))).length = 1 := rfl
    have hlimit : (encode (Value.uint (UInt32.ofNat (2 ^ 32 - 1)).toNat)).length = 5 := rfl
    have hoffset : (encode (Value.uint (UInt32.toNat 0))).length = 1 := rfl
    have hiter : (encode (Value.uint (UInt8.toNat 2))).length = 1 := rfl
    rw [hkeys, hkeys, hkeys, hkeys, hkeys, hkeys, hmap, hindex, hlimit, hoffset, hiter]
    omega
  -- the prefix is the wide one at most
  have hpre : ∀ n, (mpEncodeLuint32 n).length ≤ 9 := by
    intro n
    unfold mpEncodeLuint32
    split_ifs
    · simp only [mpStoreU8_eq, mpStoreU32_eq, List.length_append, List.length_singleton, be_length]
      omega
    · simp only [mpStoreU8_eq, mpStoreU64_eq, List.length_append, List.length_singleton, be_length]
      omega
  have hle := hpre (UInt64.ofNat (v.map List.length).sum)
  rw [List.flatten_cons, List.length_append]
  omega

omit [Msgpuck] in
/-- A call on a stream that buffers and does not fail.  The call is fine, and the next one finds the
stream in the same state. -/
theorem sendCall_ready {s : StreamNet UInt8} (hready : Ready s) (hbuf : 64 ≤ s.sbuf.size)
    (op : SendOp UInt8) :
    ∃ rc s', sendCall s op = some (rc, s') ∧ Ready s' ∧ s'.sbuf.size = s.sbuf.size ∧
      (⟨s, op, rc, s'⟩ : SendCall UInt8).Fine := by
  obtain ⟨block, hblock⟩ : ∃ block, s.sbuf.buf = some block := by
    apply Option.ne_none_iff_exists'.mp
    intro hnone
    have hsized := hready.sending.sized
    rw [Iob.Sized, hnone] at hsized
    have hzero : s.sbuf.size = 0 := hsized
    omega
  obtain ⟨rc, s', hcall, hkept, hfine, -⟩ :=
    sendCall_reliable_buffered hready.sending hready.reliable hblock op
  refine ⟨rc, s', hcall, ⟨?_, hkept.sending, hkept.reliable⟩, hkept.size_eq, hfine⟩
  rw [hkept.rbuf]
  exact hready.rbuf

omit [Msgpuck] in
/-- A write that fits into the send buffer counts.  Whether it goes to the buffer or to the
transport is not asked. -/
theorem tntNetWritev_counts {s : TntStream} (hready : Ready s.net) {iov : List Bytes}
    (hbuf : 64 ≤ s.net.sbuf.size) (hfit : iov.flatten.length ≤ 64) :
    ∃ rc s', tntNetWritev s iov = some (rc, s') ∧ Ready s'.net ∧
      s'.wrcnt = (s.wrcnt + 1) % 2 ^ 32 ∧ s'.net.sbuf.size = s.net.sbuf.size := by
  obtain ⟨rc, net, hcall, hready', hsize, -, hrc⟩ := sendCall_ready hready hbuf (.sendv iov)
  have hsmall : ¬ (s.net.sbuf.buf.isSome ∧ s.net.sbuf.size < (SendOp.sendv iov).payload.length) := by
    rintro ⟨-, hbig⟩
    have hle : (SendOp.sendv iov).payload.length ≤ 64 := hfit
    omega
  dsimp only at hrc
  rw [if_neg hsmall] at hrc
  have hne : rc ≠ -1 := by omega
  refine ⟨rc, TntStream.countUp { s with net := net }, ?_, hready', rfl, hsize⟩
  simp only [tntNetWritev, netWrite, hcall, Option.bind_eq_bind, Option.bind_some, ne_eq, hne,
    not_false_eq_true, if_true]

/-- Either select counts.  Its key is freed, its bytes are in the buffer, and one more reply is due.
-/
theorem selectAll_counts {M : Memory} (hM : M.Lasts) {s : TntStream} (hready : Ready s.net)
    (hbuf : 64 ≤ s.net.sbuf.size) (space : UInt32) :
    ∃ rc s', selectAll space M s = some (rc, s') ∧ Ready s'.net ∧
      s'.wrcnt = (s.wrcnt + 1) % 2 ^ 32 ∧ s'.net.sbuf.size = s.net.sbuf.size := by
  obtain ⟨stack, hstack, hlen⟩ := hM.stack
  obtain ⟨rv, key, hkey, hbytes⟩ := tntObjectAddArray_empty hM.obj hlen
  obtain ⟨iov, hselect, hfit⟩ := @selectAll_iov _ s.reqid space _ hbytes
  obtain ⟨rc, s', hwrite, hready', hcnt, hsize⟩ :=
    @tntNetWritev_counts { s with reqid := s.reqid + 1 } hready iov hbuf hfit
  refine ⟨rc, s', ?_, hready', hcnt, hsize⟩
  simp only [selectAll, hstack, hkey, hselect, Option.bind_eq_bind, Option.bind_some, sendOn, hwrite]

/-- **On a stream that buffers 64 bytes both selects go out.**  The counter is 2 then, which is what
the loop waits for. -/
theorem askSchema_counts {M : Memory} (hM : M.Lasts) {s : TntStream} (hready : Ready s.net)
    (hbuf : 64 ≤ s.net.sbuf.size) (hzero : s.wrcnt = 0) :
    ∃ s', askSchema M s = some s' ∧ s'.wrcnt = 2 ∧ s'.net.sbuf.size = s.net.sbuf.size := by
  obtain ⟨rc₁, s₁, hspace, hready₁, hcnt₁, hsize₁⟩ :=
    @selectAll_counts _ M hM { s with reqid := 127 } hready hbuf 281
  obtain ⟨rc₂, s₂, hindex, hready₂, hcnt₂, hsize₂⟩ :=
    selectAll_counts hM hready₁ (Nat.le_trans hbuf (Nat.le_of_eq hsize₁.symm)) 289
  have hsize : s₂.net.sbuf.size = s.net.sbuf.size := hsize₂.trans hsize₁
  obtain ⟨rc₃, net, hflush, -, hsize₃, -⟩ := sendCall_ready hready₂ (by omega) .flush
  refine ⟨⟨s₂.wrcnt, s.reqid.toUInt32.toUInt64, net⟩, ?_, ?_, hsize₃.trans hsize⟩
  · have hspace' : selectAll 281 M { s with reqid := UInt32.toUInt64 127 } = some (rc₁, s₁) := hspace
    simp only [askSchema, tntStreamReqid, tntGetSpace, hspace', tntGetIndex, hindex, tntFlush,
      hflush, Option.bind_eq_bind, Option.bind_some, pure]
  · have hone : s₁.wrcnt = (s.wrcnt + 1) % 2 ^ 32 := hcnt₁
    show s₂.wrcnt = 2
    omega

/-- Such a stream is all a reload needs. -/
theorem Prepared.of_buffered {M : Memory} (hM : M.Lasts) {c : Conn} (hready : Ready c.s.net)
    (hbuf : 64 ≤ c.s.net.sbuf.size) (hconn : c.connected = true) (hzero : c.s.wrcnt = 0) :
    Prepared M c := by
  obtain ⟨s, hask, htwo, -⟩ := askSchema_counts hM hready hbuf hzero
  exact ⟨hready, hconn, hzero, hM.reply, s, hask, htwo⟩

/-- What has been put aside is a reply with indexes, if it is anything. -/
def BkpOk (l : Loading) : Prop :=
  l.bkp = zeroReply ∨
    ∃ w, ∃ indexes : List IndexRow, Answers w 128 (indexes.map IndexRow.value) ∧ w.ReadAs l.bkp

/-- A reply of either kind is dealt with, and only an error ends the loop.  Also a reply whose data
does not parse: `tnt_schema_add_spaces` returns -1, and nobody looks. -/
theorem onReply_total {M : Memory} {w : WireReply} {l : Loading} (hw : SpaceReply w ∨ IndexReply w)
    (hr : w.ReadAs l.it.r) (hbkp : BkpOk l) :
    ∃ goOn l', onReply M l = some (goOn, l') ∧ BkpOk l' ∧ (goOn = true ↔ ¬ w.HasError) := by
  rcases hw with (⟨spaces, h⟩ | h) | (⟨indexes, h⟩ | h)
  · exact ⟨true, _, onReply_spaces h hr, hbkp, by simp [h.noError]⟩
  · exact ⟨false, l, onReply_error h hr, hbkp, by simp [h.hasError]⟩
  · rcases Nat.mod_two_eq_zero_or_one l.sloaded with heven | hodd
    · exact ⟨true, _, onReply_indexes_early h hr heven, Or.inr ⟨w, indexes, h, hr⟩,
        by simp [h.noError]⟩
    · obtain ⟨rc, schema, hadd⟩ := tntSchemaAddIndexes_total M.name l.schema h.encodes
      exact ⟨true, _, onReply_indexes h hr hodd hadd, hbkp, by simp [h.noError]⟩
  · exact ⟨false, l, onReply_error h hr, hbkp, by simp [h.hasError]⟩

/-- What was put aside can be loaded, whatever it is. -/
theorem finishBkp_total (M : Memory) {l : Loading} (hbkp : BkpOk l) : ∃ l', finishBkp M l = some l' := by
  rcases hbkp with hnone | ⟨w, indexes, h, hr⟩
  · exact ⟨l, finishBkp_none hnone⟩
  · obtain ⟨rc, schema, hadd⟩ := tntSchemaAddIndexes_total M.name l.schema h.encodes
    exact ⟨_, finishBkp_some hr hadd⟩

/-- One turn, with a final reply to come.  What is left to come is what stands behind it, and the
counter has gone down by one. -/
theorem reloadLoop_reads {M : Memory} (hM : ∀ n, M.reply n = true) {l : Loading}
    (hready : Ready l.s.net) (hcnt : l.s.wrcnt ≠ 0) (hlt : l.s.wrcnt < 2 ^ 32) {w : WireReply}
    (hw : w.IsFinal) {rest : Bytes} (hcome : l.s.net.toCome = w.bytes ++ rest) :
    ∃ it s, tntNext M.reply l.it l.s = some (1, it, s) ∧ w.ReadAs it.r ∧ Ready s.net ∧
      s.net.toCome = rest ∧ s.wrcnt = l.s.wrcnt - 1 ∧ s.net.sbuf = l.s.net.sbuf := by
  obtain ⟨r, net, hnext, hread, hready', hcome'⟩ :=
    tntNext_final hM hready hcnt hcome hw l.it
  obtain ⟨-, hsbuf, -⟩ := tntNext_cases hready.rbuf hnext
  exact ⟨_, _, hnext, hread, hready', hcome', countDown_wrcnt hcnt hlt, hsbuf⟩

/-- The second reply, whatever it is, is the last thing that is read.  If it carries an error the
loop is left with `goto error`, and if not the counter is 0.  Both ways nothing more is read. -/
theorem reloadLoop_second {M : Memory} (hM : ∀ n, M.reply n = true) {l : Loading}
    (hready : Ready l.s.net) (hcnt : l.s.wrcnt = 1) {w : WireReply}
    (hw : SpaceReply w ∨ IndexReply w) (hbkp : BkpOk l) {rest : Bytes}
    (hcome : l.s.net.toCome = w.bytes ++ rest) (fuel : Nat) :
    ∃ goOn l', reloadLoop M (fuel + 2) l = some (goOn, l') ∧ BkpOk l' ∧ l'.s.wrcnt = 0 ∧
      l'.s.net.toCome = rest := by
  have hfinal : w.IsFinal := by
    rcases hw with h | h
    · exact h.isFinal
    · exact h.isFinal
  obtain ⟨it, s, hnext, hr, -, hcome', hcnt', -⟩ := reloadLoop_reads hM hready
    (by omega) (by omega) hfinal hcome
  obtain ⟨goOn, l₁, hon, hbkp₁, -⟩ :=
    @onReply_total _ M w { l with it := it, s := s } hw hr hbkp
  have hs₁ : l₁.s = s := (onReply_keeps hon).1
  have hzero : l₁.s.wrcnt = 0 := by
    rw [hs₁]
    omega
  have hrest : l₁.s.net.toCome = rest := by rw [hs₁, hcome']
  rw [reloadLoop_turn hnext (by decide) hon]
  cases goOn with
  | false => exact ⟨false, l₁, rfl, hbkp₁, hzero, hrest⟩
  | true => exact ⟨true, _, reloadLoop_over hzero, hbkp₁, hzero, hrest⟩

omit [Msgpuck] in
/-- There are bytes for two more turns behind the first. -/
theorem exists_fuel {come rest : Bytes} {w : WireReply} (hcome : come = w.bytes ++ rest) :
    ∃ fuel, come.length = fuel + 2 := by
  refine ⟨come.length - 2, ?_⟩
  rw [hcome, w.bytes_eq, List.length_append, List.length_append, w.prefix_length, iprotoHdrSize]
  omega

/-- The second half of a reload, in step or one reply behind.  The first reply decides.  An error in
it leaves the loop with the second reply unread; an error in the second leaves nothing behind. -/
theorem readSchema_in_step {M : Memory} (hM : ∀ n, M.reply n = true) {s : TntStream}
    (hready : Ready s.net) (hcnt : s.wrcnt = 2) (schema : TntSchema) {w₁ w₂ : WireReply}
    (hw₁ : SpaceReply w₁ ∨ IndexReply w₁) (hw₂ : SpaceReply w₂ ∨ IndexReply w₂) {rest : Bytes}
    (hcome : s.net.toCome = w₁.bytes ++ (w₂.bytes ++ rest)) :
    ∃ rc l, readSchema M s schema = some (rc, l) ∧ (rc = 0 ∨ rc = -1) ∧
      ((l.s.wrcnt = 0 ∧ l.s.net.toCome = rest) ↔ ¬ w₁.HasError) := by
  have hfinal : w₁.IsFinal := by
    rcases hw₁ with h | h
    · exact h.isFinal
    · exact h.isFinal
  obtain ⟨it, s₁, hnext, hr, hready₁, hcome₁, hcnt₁, -⟩ :=
    @reloadLoop_reads _ M hM ⟨s, tntIterReply, schema, 0, zeroReply⟩ hready
      (by show s.wrcnt ≠ 0; omega) (by show s.wrcnt < _; omega) _ hfinal _ hcome
  obtain ⟨goOn, l₁, hon, hbkp₁, hgo⟩ :=
    @onReply_total _ M w₁ ⟨s₁, it, schema, 0, zeroReply⟩ hw₁ hr (Or.inl rfl)
  have hs₁ : l₁.s = s₁ := (onReply_keeps hon).1
  have hone : l₁.s.wrcnt = 1 := by
    rw [hs₁, hcnt₁]
    show s.wrcnt - 1 = 1
    omega
  obtain ⟨fuel, hfuel⟩ := exists_fuel hcome
  have hturn := @reloadLoop_turn _ ⟨s, tntIterReply, schema, 0, zeroReply⟩ M
    s.net.toCome.length l₁ 1 it s₁ hnext (by decide) goOn hon
  cases goOn with
  | false =>
    -- the first reply ends the loop: the second is still to come
    have herr : w₁.HasError := by
      by_contra hno
      exact absurd (hgo.mpr hno) (by simp)
    refine ⟨-1, l₁, ?_, Or.inr rfl, ?_⟩
    · simp only [readSchema, hturn, Bool.false_eq_true, if_false, Option.bind_eq_bind,
        Option.bind_some]
    · constructor
      · rintro ⟨hzero, -⟩
        omega
      · intro hno
        exact absurd herr hno
  | true =>
    -- the second ends it too, or not: nothing is outstanding any more
    obtain ⟨goOn, l₂, hloop, hbkp₂, hzero, hrest⟩ := reloadLoop_second hM
      (by rw [hs₁]; exact hready₁) hone hw₂ hbkp₁ (by rw [hs₁]; exact hcome₁) fuel
    rw [← hfuel] at hloop
    rw [if_pos rfl, hloop] at hturn
    cases goOn with
    | false =>
      refine ⟨-1, l₂, ?_, Or.inr rfl, fun _ => hgo.mp rfl, fun _ => ⟨hzero, hrest⟩⟩
      simp only [readSchema, hturn, Option.bind_eq_bind, Option.bind_some, Bool.false_eq_true,
        if_false]
    | true =>
      obtain ⟨l₃, hfin⟩ := finishBkp_total M hbkp₂
      have hs₃ := (finishBkp_keeps hfin).1
      refine ⟨if l₃.sloaded ≠ 3 then -1 else 0, l₃, ?_, ?_, fun _ => hgo.mp rfl, fun _ => ?_⟩
      · simp only [readSchema, hturn, Option.bind_eq_bind, Option.bind_some, if_true, hfin, pure]
      · by_cases hthree : l₃.sloaded = 3
        · exact Or.inl (by simp [hthree])
        · exact Or.inr (by simp [hthree])
      · rw [hs₃]
        exact ⟨hzero, hrest⟩

/-- A prepared reload is its second half.  The first half has sent its two requests, set the counter
and put the request number back. -/
theorem Prepared.reload {M : Memory} {c : Conn} (h : Prepared M c) :
    ∃ s, Ready s.net ∧ s.wrcnt = 2 ∧ s.net.toCome = c.s.net.toCome ∧
      ∀ {rc l}, readSchema M s c.schema = some (rc, l) →
        tntReloadSchema M c = some (rc, { c with s := l.s, schema := l.schema }) := by
  obtain ⟨s, hask, htwo⟩ := h.asked
  obtain ⟨hframe, -⟩ := askSchema_wrote h.ready.sending hask
  refine ⟨s, ⟨?_, hframe.sending, ?_⟩, htwo, toCome_of_frame hframe, ?_⟩
  · rw [hframe.rbuf]
    exact h.ready.rbuf
  · rintro n ⟨e, he⟩
    exact h.ready.reliable n ⟨e, by rw [← hframe.move]; exact he⟩
  · intro rc l hread
    have hguard : ¬ ((!c.connected) = true ∨ c.s.wrcnt ≠ 0) := by simp [h.connected, h.idle]
    simp only [tntReloadSchema, if_neg hguard, hask, hread, Option.bind_eq_bind, Option.bind_some,
      pure]

/-- The spaces come first: their rows are added, then those of the indexes.  The loop finds the
replies in the order in which the rows have to be added. -/
theorem readSchema_spaces_first {M : Memory} (hM : ∀ n, M.reply n = true) {s : TntStream}
    (hready : Ready s.net) (hcnt : s.wrcnt = 2) {schema schema' : TntSchema} {ws wi : WireReply}
    {spaces : List SpaceRow} {indexes : List IndexRow} {rc : Int}
    (hs : Answers ws 127 (spaces.map SpaceRow.value))
    (hi : Answers wi 128 (indexes.map IndexRow.value)) {rest : Bytes}
    (hcome : s.net.toCome = ws.bytes ++ (wi.bytes ++ rest))
    (hadd : tntSchemaAddIndexes M.name (addSpaces schema (spaceTable M.name spaces)) (wireData wi) =
      some (rc, schema')) :
    ∃ l, readSchema M s schema = some (0, l) ∧ l.schema = schema' ∧ Ready l.s.net ∧
      l.s.wrcnt = 0 ∧ l.s.net.toCome = rest ∧ l.s.net.sbuf = s.net.sbuf := by
  obtain ⟨fuel, hfuel⟩ := exists_fuel hcome
  obtain ⟨it₁, s₁, hnext₁, hr₁, hready₁, hcome₁, hcnt₁, hsbuf₁⟩ :=
    @reloadLoop_reads _ M hM ⟨s, tntIterReply, schema, 0, zeroReply⟩ hready
      (by show s.wrcnt ≠ 0; omega) (by show s.wrcnt < _; omega) _ hs.isFinal _ hcome
  have hcnt₁' : s₁.wrcnt = s.wrcnt - 1 := hcnt₁
  have hturn₁ : reloadLoop M (fuel + 2 + 1) ⟨s, tntIterReply, schema, 0, zeroReply⟩ =
      reloadLoop M (fuel + 2)
        ⟨s₁, it₁, addSpaces schema (spaceTable M.name spaces), 0 + 1, zeroReply⟩ :=
    reloadLoop_turn hnext₁ (by decide) (onReply_spaces hs hr₁)
  obtain ⟨it₂, s₂, hnext₂, hr₂, hready₂, hcome₂, hcnt₂, hsbuf₂⟩ :=
    @reloadLoop_reads _ M hM
      ⟨s₁, it₁, addSpaces schema (spaceTable M.name spaces), 0 + 1, zeroReply⟩ hready₁
      (by show s₁.wrcnt ≠ 0; omega) (by show s₁.wrcnt < _; omega) _ hi.isFinal _ hcome₁
  have hcnt₂' : s₂.wrcnt = s₁.wrcnt - 1 := hcnt₂
  have hturn₂ : reloadLoop M (fuel + 1 + 1)
        ⟨s₁, it₁, addSpaces schema (spaceTable M.name spaces), 0 + 1, zeroReply⟩ =
      reloadLoop M (fuel + 1) ⟨s₂, it₂, schema', 0 + 1 + 2, zeroReply⟩ :=
    reloadLoop_turn hnext₂ (by decide) (onReply_indexes hi hr₂ rfl hadd)
  -- no reply is outstanding: the loop is over, and nothing was put aside
  have hover := @reloadLoop_over _ ⟨s₂, it₂, schema', 0 + 1 + 2, zeroReply⟩ M fuel
    (by show s₂.wrcnt = 0; omega)
  refine ⟨⟨s₂, { it₂ with r := zeroReply }, schema', 0 + 1 + 2, zeroReply⟩, ?_, rfl,
    hready₂, by show s₂.wrcnt = 0; omega, hcome₂, hsbuf₂.trans hsbuf₁⟩
  simp only [readSchema, hfuel]
  rw [hturn₁, hturn₂, hover]
  simp only [Option.bind_eq_bind, Option.bind_some, if_true, finishBkp_none, pure]
  rfl

/-- The indexes come first: they are put aside and added behind the spaces.  So the order of arrival
makes no difference to what is loaded. -/
theorem readSchema_indexes_first {M : Memory} (hM : ∀ n, M.reply n = true) {s : TntStream}
    (hready : Ready s.net) (hcnt : s.wrcnt = 2) {schema schema' : TntSchema} {ws wi : WireReply}
    {spaces : List SpaceRow} {indexes : List IndexRow} {rc : Int}
    (hs : Answers ws 127 (spaces.map SpaceRow.value))
    (hi : Answers wi 128 (indexes.map IndexRow.value)) {rest : Bytes}
    (hcome : s.net.toCome = wi.bytes ++ (ws.bytes ++ rest))
    (hadd : tntSchemaAddIndexes M.name (addSpaces schema (spaceTable M.name spaces)) (wireData wi) =
      some (rc, schema')) :
    ∃ l, readSchema M s schema = some (0, l) ∧ l.schema = schema' := by
  obtain ⟨fuel, hfuel⟩ := exists_fuel hcome
  obtain ⟨it₁, s₁, hnext₁, hr₁, hready₁, hcome₁, hcnt₁, -⟩ :=
    @reloadLoop_reads _ M hM ⟨s, tntIterReply, schema, 0, zeroReply⟩ hready
      (by show s.wrcnt ≠ 0; omega) (by show s.wrcnt < _; omega) _ hi.isFinal _ hcome
  have hcnt₁' : s₁.wrcnt = s.wrcnt - 1 := hcnt₁
  have hturn₁ : reloadLoop M (fuel + 2 + 1) ⟨s, tntIterReply, schema, 0, zeroReply⟩ =
      reloadLoop M (fuel + 2)
        ⟨s₁, { it₁ with r := { it₁.r with buf := none } }, schema, 0, it₁.r⟩ :=
    reloadLoop_turn hnext₁ (by decide) (onReply_indexes_early hi hr₁ rfl)
  obtain ⟨it₂, s₂, hnext₂, hr₂, -, -, hcnt₂, -⟩ :=
    @reloadLoop_reads _ M hM
      ⟨s₁, { it₁ with r := { it₁.r with buf := none } }, schema, 0, it₁.r⟩ hready₁
      (by show s₁.wrcnt ≠ 0; omega) (by show s₁.wrcnt < _; omega) _ hs.isFinal _ hcome₁
  have hcnt₂' : s₂.wrcnt = s₁.wrcnt - 1 := hcnt₂
  have hturn₂ : reloadLoop M (fuel + 1 + 1)
        ⟨s₁, { it₁ with r := { it₁.r with buf := none } }, schema, 0, it₁.r⟩ =
      reloadLoop M (fuel + 1)
        ⟨s₂, it₂, addSpaces schema (spaceTable M.name spaces), 0 + 1, it₁.r⟩ :=
    reloadLoop_turn hnext₂ (by decide) (onReply_spaces hs hr₂)
  have hover := @reloadLoop_over _
    ⟨s₂, it₂, addSpaces schema (spaceTable M.name spaces), 0 + 1, it₁.r⟩ M fuel
    (by show s₂.wrcnt = 0; omega)
  -- what was put aside is added behind the loop
  have hfin := @finishBkp_some _ M wi ⟨s₂, { it₂ with r := zeroReply },
    addSpaces schema (spaceTable M.name spaces), 0 + 1, it₁.r⟩ hr₁ rc schema' hadd
  refine ⟨⟨s₂, { it₂ with r := zeroReply }, schema', 0 + 1 + 2, it₁.r⟩, ?_, rfl⟩
  simp only [readSchema, hfuel]
  rw [hturn₁, hturn₂, hover]
  simp only [Option.bind_eq_bind, Option.bind_some, if_true, hfin, pure]
  rfl

/-- A reload with the spaces first, from a stream that buffers 64 bytes to one from which the next
reload can start.  It can be used again for the next reload, so runs of reloads follow from it. -/
theorem reload_spaces_first {M : Memory} (hM : M.Lasts) {c : Conn} (hready : Ready c.s.net)
    (hbuf : 64 ≤ c.s.net.sbuf.size) (hconn : c.connected = true) (hzero : c.s.wrcnt = 0)
    {ws wi : WireReply} {spaces : List SpaceRow} {indexes : List IndexRow}
    (hs : Answers ws 127 (spaces.map SpaceRow.value))
    (hi : Answers wi 128 (indexes.map IndexRow.value)) {rest : Bytes}
    (hcome : c.s.net.toCome = ws.bytes ++ (wi.bytes ++ rest)) :
    ∃ c', tntReloadSchema M c = some (0, c') ∧ c'.schema = loaded M.name c.schema spaces indexes ∧
      Ready c'.s.net ∧ 64 ≤ c'.s.net.sbuf.size ∧ c'.connected = true ∧ c'.s.wrcnt = 0 ∧
      c'.s.net.toCome = rest := by
  obtain ⟨s, hask, htwo, hsize⟩ := askSchema_counts hM hready hbuf hzero
  obtain ⟨hframe, -⟩ := askSchema_wrote hready.sending hask
  have hready' : Ready s.net := by
    refine ⟨by rw [hframe.rbuf]; exact hready.rbuf, hframe.sending, ?_⟩
    rintro n ⟨e, he⟩
    exact hready.reliable n ⟨e, by rw [← hframe.move]; exact he⟩
  obtain ⟨rc, hadd⟩ := tntSchemaAddIndexes_loaded M.name c.schema spaces hi.encodes
  obtain ⟨l, hread, hschema, hready₂, hzero₂, hcome₂, hsbuf⟩ :=
    readSchema_spaces_first hM.reply hready' htwo hs hi ((toCome_of_frame hframe).trans hcome) hadd
  have hguard : ¬ ((!c.connected) = true ∨ c.s.wrcnt ≠ 0) := by simp [hconn, hzero]
  refine ⟨{ c with s := l.s, schema := l.schema }, ?_, hschema, hready₂, ?_, hconn, hzero₂, hcome₂⟩
  · simp only [tntReloadSchema, if_neg hguard, hask, hread, Option.bind_eq_bind, Option.bind_some,
      pure]
  · show 64 ≤ l.s.net.sbuf.size
    rw [hsbuf, hsize]
    exact hbuf

end Served

/-! ## §6 — results.

For the evaluations: a connection with a send buffer of 64 bytes and no receive buffer, whose
transport moves a byte at a time, and replies as a server would encode them. -/

def demoMemory : Memory :=
  ⟨some (List.replicate 8 ⟨0, 0, .array⟩), zeroingObj, fun _ => true, customRealloc⟩

/-- There is memory, ... -/
theorem demoMemory_lasts : demoMemory.Lasts := ⟨⟨_, rfl, rfl⟩, zeroingObj_succeeds, fun _ => rfl⟩

/-- A connection before it is connected. -/
def demoNew : Conn :=
  ⟨⟨0, 0, StreamNet.fresh (List.replicate 64 0) [] [] false 16 fun _ => .take 0⟩, false,
    tntSchemaNew⟩

def demoConn (incoming : Bytes) : Conn :=
  connectedTo demoNew ⟨incoming, [], fun _ => .take 0, 0, 0, 16⟩

/-- ... and a connection that a program can have, ... -/
theorem demoConn_reached [Msgpuck] (incoming : Bytes) : Reached (demoConn incoming) :=
  .connect (.new _ _ _ _ _) _

/-- ... in order, ... -/
theorem demoConn_ready (incoming : Bytes) : Ready (demoConn incoming).s.net where
  rbuf := tntIobInit_wf _ _
  sending := ⟨(tntIobInit_wf (List.replicate 64 0) false).sized, Nat.zero_le _⟩
  reliable := by
    rintro n ⟨e, he⟩
    exact absurd he (by simp [demoConn, connectedTo])

/-- ... over which both selects go out. -/
theorem demoConn_prepared [Msgpuck] (incoming : Bytes) :
    Prepared demoMemory (demoConn incoming) :=
  .of_buffered demoMemory_lasts (demoConn_ready incoming) (Nat.le_refl 64) rfl rfl

/-- `{TNT_CODE: code, TNT_SYNC: sync}`. -/
def demoHdr (code sync : Nat) (hcode : code < 2 ^ 64) (hsync : sync < 2 ^ 64) : WireMap :=
  .packed [.packed 0 (.uint code) (HeaderKey.num_lt .code) hcode,
    .packed 1 (.uint sync) (HeaderKey.num_lt .sync) hsync] (by decide : 2 < 2 ^ 32)

/-- `{TNT_DATA: rows}`. -/
def demoBody (rows : List Value) (h : (Value.array rows).Fits) : WireMap :=
  .packed [.packed 0x30 (.array rows) (ResponseKey.num_lt .data) h] (by decide : 1 < 2 ^ 32)

/-- The replies are of the format, ... -/
theorem demo_wellFormed {sync : Nat} (hsync : sync < 2 ^ 64) {rows : List Value}
    (h : (Value.array rows).Fits) :
    WellFormed (demoHdr 0 sync (by decide) hsync) (some (demoBody rows h)) where
  hdr w hw := by
    rcases List.mem_cons.mp hw with rfl | hw
    · exact ⟨Or.inl rfl, 0, rfl⟩
    · rw [List.mem_singleton.mp hw]
      exact ⟨Or.inr (Or.inl rfl), sync, rfl⟩
  body m hm w hw := by
    cases hm
    rw [List.mem_singleton.mp hw]
    have hkey : ∀ k : ResponseKey, k ≠ .data → 0x30 ≠ k.num := by
      intro k hk
      cases k <;> first | decide | exact absurd rfl hk
    exact ⟨(by decide : 0x30 < 2 ^ 32), fun h => absurd h (hkey .error (by decide)), fun _ => rfl,
      fun h => absurd h (hkey .metadata (by decide)), fun h => absurd h (hkey .sqlInfo (by decide))⟩

/-- ... and carry rows, ... -/
theorem demo_answers {w : WireReply} {sync : Nat} (hsync : sync < 2 ^ 64) {rows : List Value}
    (h : (Value.array rows).Fits) (hhdr : w.hdr = demoHdr 0 sync (by decide) hsync)
    (hbody : w.body = some (demoBody rows h)) : Answers w sync rows where
  sync := by rw [hhdr]; rfl
  code := by rw [WireReply.code, hhdr]; rfl
  noError := by
    rintro ⟨m, hm, p, hp, hk⟩
    rw [hbody] at hm
    cases hm
    rw [List.mem_singleton.mp hp] at hk
    exact absurd hk (by decide : ¬ 0x30 = ResponseKey.error.num)
  data := ⟨_, [], _, hbody, rfl, rfl⟩

/-- A space that is there instead of `"test"` later. -/
def newSpace : SpaceRow := ⟨⟨[0x6e], 513⟩, .uint 1, []⟩

/-- ... which fit a message: a space, ... -/
theorem testSpace_fits : (Value.array ([testSpace].map SpaceRow.value)).Fits := by
  simp [Value.Fits, FitsAll, SpaceRow.value, testSpace, test]

/-- ... an index, ... -/
theorem testIndex_fits : (Value.array ([testIndex].map IndexRow.value)).Fits := by
  simp [Value.Fits, FitsAll, IndexRow.value, testIndex]

/-- ... another space, ... -/
theorem newSpace_fits : (Value.array ([newSpace].map SpaceRow.value)).Fits := by
  simp [Value.Fits, FitsAll, SpaceRow.value, newSpace]

/-- ... and none at all. -/
theorem noRows_fits : (Value.array (([] : List IndexRow).map IndexRow.value)).Fits := by
  simp [Value.Fits, FitsAll]

/-- A code of 0 fits, too. -/
theorem okCode_lt : 0 < 2 ^ 64 := by
  decide

def testSpaces : WireReply :=
  ⟨demoHdr 0 127 okCode_lt (by decide), some (demoBody _ testSpace_fits),
    demo_wellFormed _ testSpace_fits, by decide⟩

def testIndexes : WireReply :=
  ⟨demoHdr 0 128 okCode_lt (by decide), some (demoBody _ testIndex_fits),
    demo_wellFormed _ testIndex_fits, by decide⟩

def newSpaces : WireReply :=
  ⟨demoHdr 0 127 okCode_lt (by decide), some (demoBody _ newSpace_fits),
    demo_wellFormed _ newSpace_fits, by decide⟩

def noIndexes : WireReply :=
  ⟨demoHdr 0 128 okCode_lt (by decide), some (demoBody _ noRows_fits),
    demo_wellFormed _ noRows_fits, by decide⟩

/-- The replies, each under the number of its select: a space, ... -/
theorem testSpaces_answers : Answers testSpaces 127 ([testSpace].map SpaceRow.value) :=
  demo_answers _ testSpace_fits rfl rfl

/-- ... its index, ... -/
theorem testIndexes_answers : Answers testIndexes 128 ([testIndex].map IndexRow.value) :=
  demo_answers _ testIndex_fits rfl rfl

/-- ... the space that comes after it, ... -/
theorem newSpaces_answers : Answers newSpaces 127 ([newSpace].map SpaceRow.value) :=
  demo_answers _ newSpace_fits rfl rfl

/-- ... which has no index. -/
theorem noIndexes_answers : Answers noIndexes 128 (([] : List IndexRow).map IndexRow.value) :=
  demo_answers _ noRows_fits rfl rfl

/-- **When a reload reflects the schema of the server.**  Whatever has happened to the connection
before, and whatever rows the two replies have: after a reload that returns 0, in whichever order
the replies came, a lookup is right exactly if nothing shadows it.  What can is a row behind the one
that is looked for, with a key in common; an entry of an earlier reload; and a row that was refused,
with which all rows behind it are missing.  The reload does not flush, so what it finds in the
schema stays and may be in the way (`leftOver`).  Both directions are read off `reload_loaded`: the
schema afterwards is the old one with the rows of both replies on top, up to the first that is
refused. -/
theorem reload_reflects_iff [Msgpuck] {M : Memory} {c c' : Conn} (hc : Reached c)
    {ws wi : WireReply} {spaces : List SpaceRow} {indexes : List IndexRow}
    (hs : Answers ws 127 (spaces.map SpaceRow.value))
    (hi : Answers wi 128 (indexes.map IndexRow.value)) {rest : Bytes}
    (hcome : Coming ws wi rest c.s.net.toCome) (h : tntReloadSchema M c = some (0, c')) :
    (∀ name, Yields (GivenSpace spaces name) (tntGetSpaceno c' name) ↔
      Unshadowed (GivenSpace spaces name) (spaceTable M.name spaces) (nameArg name)
        (tntGetSpaceno c name)) ∧
    ∀ (spaceno : Int32) name,
      Yields (GivenIndex indexes spaceno.toInt name) (tntGetIndexno c' spaceno name) ↔
        Unshadowed (GivenIndex indexes spaceno.toInt name)
          (indexTable M.name c.schema spaces indexes spaceno.toUInt32.toNat) (nameArg name)
          (if leads M.name spaces spaceno.toUInt32.toNat = none then tntGetIndexno c spaceno name
            else -1) := by
  have hinv := hc.inv
  have hschema := reload_loaded hinv hs hi hcome h
  refine ⟨fun name => ?_, fun spaceno name => ?_⟩
  · rw [tntGetSpaceno, hschema]
    exact tntSchemaStosid_iff M.name spaces indexes hinv.schema name (nameArg name)
  · rw [tntGetIndexno, hschema]
    exact tntSchemaStoiid_iff M.name spaces indexes hinv.schema spaceno.toInt spaceno.toUInt32 name
      (nameArg name)

/-- A reload of the space, ... -/
theorem reload_reflects_test :
    ∃ c', @tntReloadSchema Msgpuck.reference demoMemory
        (demoConn (testSpaces.bytes ++ (testIndexes.bytes ++ []))) = some (0, c') ∧
      Yields (GivenSpace [testSpace] test) (tntGetSpaceno c' test) := by
  let _ := Msgpuck.reference
  obtain ⟨c', hreload, -⟩ := reload_spaces_first demoMemory_lasts (demoConn_ready _)
    (Nat.le_refl 64) rfl rfl testSpaces_answers testIndexes_answers rfl
  refine ⟨c', hreload, ?_⟩
  refine ((reload_reflects_iff (demoConn_reached _) testSpaces_answers testIndexes_answers
    (Or.inl rfl) hreload).1 test).mpr (Unshadowed.of_clear ?_ ?_ ?_ ?_)
  · intro l
    simp [GivenSpace, spaceTable, SpaceRow.named, demoMemory, customRealloc, testSpace, Label.narrow,
      eq_comm, nameArg, test]
  · decide
  · rintro l l' ⟨⟨r, hr, rfl⟩, -⟩ ⟨⟨r', hr', rfl⟩, -⟩
    rw [List.mem_singleton.mp hr, List.mem_singleton.mp hr']
  · decide

/-- Between two reloads the server drops `"test"`; the second one still knows it. -/
theorem reload_keeps_dropped :
    ∃ c₁ c₂, @tntReloadSchema Msgpuck.reference demoMemory
        (demoConn (testSpaces.bytes ++ (testIndexes.bytes ++
          (newSpaces.bytes ++ (noIndexes.bytes ++ []))))) = some (0, c₁) ∧
      @tntReloadSchema Msgpuck.reference demoMemory c₁ = some (0, c₂) ∧
      tntGetSpaceno c₂ test = 512 ∧
      ¬ Yields (GivenSpace [newSpace] test) (tntGetSpaceno c₂ test) := by
  let _ := Msgpuck.reference
  obtain ⟨c₁, hreload₁, hschema₁, hready, hbuf, hconn, hzero, hcome⟩ :=
    reload_spaces_first demoMemory_lasts (demoConn_ready _) (Nat.le_refl 64) rfl rfl
      testSpaces_answers testIndexes_answers rfl
  obtain ⟨c₂, hreload₂, hschema₂, -⟩ :=
    reload_spaces_first demoMemory_lasts hready hbuf hconn hzero newSpaces_answers
      noIndexes_answers hcome
  have hanswer : tntGetSpaceno c₂ test = 512 := by
    rw [tntGetSpaceno, hschema₂, hschema₁]
    show tntSchemaStosid (loaded customRealloc (loaded customRealloc tntSchemaNew [testSpace]
      [testIndex]) [newSpace] []) (nameArg test) = 512
    decide
  refine ⟨c₁, c₂, hreload₁, hreload₂, hanswer, ?_⟩
  rintro ⟨-, habsent⟩
  have hminus := habsent (by simp [GivenSpace, newSpace, test])
  rw [hanswer] at hminus
  exact absurd hminus (by decide)

/-- **When a reload leaves the connection in step**: exactly if the reply that comes first is not an
error.  If it is, the other one stays unread and counted.  The loop gives up at the first error.  If
the other reply has been read by then, nothing is left; otherwise it is the reply that the next
request will take for its own. -/
theorem reload_in_step_iff [Msgpuck] {M : Memory} {c : Conn} (h : Prepared M c) {w₁ w₂ : WireReply}
    (hw : (SpaceReply w₁ ∧ IndexReply w₂) ∨ (IndexReply w₁ ∧ SpaceReply w₂)) {rest : Bytes}
    (hcome : c.s.net.toCome = w₁.bytes ++ (w₂.bytes ++ rest)) :
    ∃ rc c', tntReloadSchema M c = some (rc, c') ∧ (rc = 0 ∨ rc = -1) ∧
      ((c'.s.wrcnt = 0 ∧ c'.s.net.toCome = rest) ↔ ¬ w₁.HasError) := by
  obtain ⟨s, hready, htwo, hsame, hreload⟩ := h.reload
  have hw₁ : SpaceReply w₁ ∨ IndexReply w₁ := by
    rcases hw with ⟨h, -⟩ | ⟨h, -⟩
    · exact Or.inl h
    · exact Or.inr h
  have hw₂ : SpaceReply w₂ ∨ IndexReply w₂ := by
    rcases hw with ⟨-, h⟩ | ⟨-, h⟩
    · exact Or.inr h
    · exact Or.inl h
  obtain ⟨rc, l, hread, hrc, hiff⟩ :=
    readSchema_in_step h.memory hready htwo c.schema hw₁ hw₂ (hsame.trans hcome)
  exact ⟨rc, _, hreload hread, hrc, hiff⟩

/-- ... which leaves nothing to come. -/
theorem reload_in_step_test :
    ∃ rc c', @tntReloadSchema Msgpuck.reference demoMemory
        (demoConn (testSpaces.bytes ++ (testIndexes.bytes ++ []))) = some (rc, c') ∧
      c'.s.wrcnt = 0 ∧ c'.s.net.toCome = [] := by
  let _ := Msgpuck.reference
  obtain ⟨rc, c', hreload, -, hiff⟩ := reload_in_step_iff
    (demoConn_prepared (testSpaces.bytes ++ (testIndexes.bytes ++ [])))
    (Or.inl ⟨Or.inl ⟨_, testSpaces_answers⟩, Or.inl ⟨_, testIndexes_answers⟩⟩) rfl
  exact ⟨rc, c', hreload, hiff.mpr testSpaces_answers.noError⟩

/-- `{TNT_CODE: 0x8001, TNT_SYNC: 127}` and `{TNT_ERROR: "no"}`. -/
def refusedSpaces : WireReply where
  hdr := demoHdr 0x8001 127 (by decide) (by decide)
  body := some errorBody
  wf := by
    refine ⟨?_, errorReply_wellFormed.body⟩
    intro w hw
    rcases List.mem_cons.mp hw with rfl | hw
    · exact ⟨Or.inl rfl, 0x8001, rfl⟩
    · rw [List.mem_singleton.mp hw]
      exact ⟨Or.inr (Or.inl rfl), 127, rfl⟩
  length_lt := by decide

/-- It is an error under the number of the first select. -/
theorem refusedSpaces_refuses : Refuses refusedSpaces 127 :=
  ⟨rfl, ⟨1, rfl⟩, errorBody, rfl, _, List.mem_singleton.mpr rfl, rfl⟩

/-- The select from `_vspace` is refused: the reply with the indexes is still to come. -/
theorem reload_out_of_step :
    ∃ rc c', @tntReloadSchema Msgpuck.reference demoMemory
        (demoConn (refusedSpaces.bytes ++ (testIndexes.bytes ++ []))) = some (rc, c') ∧
      ¬ (c'.s.wrcnt = 0 ∧ c'.s.net.toCome = []) := by
  let _ := Msgpuck.reference
  obtain ⟨s, hready, htwo, hsame, hreload⟩ :=
    (demoConn_prepared (refusedSpaces.bytes ++ (testIndexes.bytes ++ []))).reload
  obtain ⟨rc, l, hread, -, hiff⟩ := readSchema_in_step demoMemory_lasts.reply hready htwo
    (demoConn (refusedSpaces.bytes ++ (testIndexes.bytes ++ []))).schema
    (Or.inl (Or.inr refusedSpaces_refuses)) (Or.inr (Or.inl ⟨_, testIndexes_answers⟩)) hsame
  refine ⟨rc, _, hreload hread, ?_⟩
  intro hstep
  exact hiff.mp hstep refusedSpaces_refuses.hasError

/-- **The order of the replies does not matter**: two connections with the same schema, one of which
gets the spaces first and the other the indexes, both succeed and give the same answers.  The
allocators may be two, as long as the same names get a block.  The reply with the indexes waits for
the spaces if it comes first, so the same two loads are made in the same order.  Their results are
looked at in neither case. -/
theorem reload_order_irrelevant [Msgpuck] {M M' : Memory} (hname : M.name = M'.name) {c d : Conn}
    (hc : Prepared M c) (hd : Prepared M' d) (hschema : c.schema = d.schema) {ws wi : WireReply}
    {spaces : List SpaceRow} {indexes : List IndexRow}
    (hs : Answers ws 127 (spaces.map SpaceRow.value))
    (hi : Answers wi 128 (indexes.map IndexRow.value)) {rest rest' : Bytes}
    (hcome : c.s.net.toCome = ws.bytes ++ (wi.bytes ++ rest))
    (hcome' : d.s.net.toCome = wi.bytes ++ (ws.bytes ++ rest')) :
    ∃ c' d', tntReloadSchema M c = some (0, c') ∧ tntReloadSchema M' d = some (0, d') ∧
      (∀ name, tntSchemaStosid c'.schema name = tntSchemaStosid d'.schema name) ∧
      ∀ sid name, tntSchemaStoiid c'.schema sid name = tntSchemaStoiid d'.schema sid name := by
  obtain ⟨rc, hadd⟩ := tntSchemaAddIndexes_loaded M.name c.schema spaces hi.encodes
  obtain ⟨s, hready, htwo, hsame, hreload⟩ := hc.reload
  obtain ⟨s', hready', htwo', hsame', hreload'⟩ := hd.reload
  obtain ⟨l, hread, hl, -⟩ :=
    readSchema_spaces_first hc.memory hready htwo hs hi (hsame.trans hcome) hadd
  rw [hschema, hname] at hadd
  obtain ⟨l', hread', hl'⟩ :=
    readSchema_indexes_first hd.memory hready' htwo' hs hi (hsame'.trans hcome') hadd
  refine ⟨_, _, hreload hread, hreload' hread', ?_, ?_⟩
  · intro name
    rw [hl, hl', hschema, hname]
  · intro sid name
    rw [hl, hl', hschema, hname]

/-- The same replies, in either order. -/
theorem reload_order_test :
    ∃ c' d', @tntReloadSchema Msgpuck.reference demoMemory
        (demoConn (testSpaces.bytes ++ (testIndexes.bytes ++ []))) = some (0, c') ∧
      @tntReloadSchema Msgpuck.reference demoMemory
        (demoConn (testIndexes.bytes ++ (testSpaces.bytes ++ []))) = some (0, d') ∧
      tntSchemaStosid c'.schema test = tntSchemaStosid d'.schema test := by
  let _ := Msgpuck.reference
  obtain ⟨c', d', hc, hd, hsame, -⟩ := reload_order_irrelevant rfl
    (demoConn_prepared (testSpaces.bytes ++ (testIndexes.bytes ++ [])))
    (demoConn_prepared (testIndexes.bytes ++ (testSpaces.bytes ++ []))) rfl testSpaces_answers
    testIndexes_answers rfl rfl
  exact ⟨c', d', hc, hd, hsame test⟩

/-! ## §7 — the request counter.

`tnt_stream_reqid` sets the counter and returns the old value.  The reload calls it twice, and so
asks it to carry a 64-bit number through 32 bits. -/

section Counter

variable [Msgpuck]

omit [Msgpuck] in
/-- The counter is left alone by a flush, ... -/
theorem tntFlush_reqid {s s' : TntStream} {rc : Int} (h : tntFlush s = some (rc, s')) :
    s'.reqid = s.reqid := by
  simp only [tntFlush, Option.bind_eq_bind, Option.bind_eq_some_iff, pure, Option.some.injEq] at h
  rcases h with ⟨⟨rc', net⟩, -, h⟩
  cases h
  rfl

/-- Reading a reply does not touch the counter. -/
theorem tntNext_reqid {alloc : Nat → Bool} {i i' : IterReply} {s s' : TntStream} {rv : Int}
    (h : tntNext alloc i s = some (rv, i', s')) : s'.reqid = s.reqid := by
  simp only [tntNext, Option.bind_eq_bind, Option.bind_eq_some_iff] at h
  rcases h with ⟨⟨rc, r, s₁⟩, hreply, h⟩
  have hreqid : s₁.reqid = s.reqid := by
    unfold tntNetReply at hreply
    split_ifs at hreply
    · cases hreply
      rfl
    · simp only [Option.bind_eq_bind, Option.bind_eq_some_iff] at hreply
      rcases hreply with ⟨⟨rv', r', net⟩, -, hreply⟩
      split_ifs at hreply
      · rw [Option.some_inj, Prod.mk.injEq, Prod.mk.injEq] at hreply
        rw [← hreply.2.2, countDown_reqid]
      · rw [Option.some_inj, Prod.mk.injEq, Prod.mk.injEq] at hreply
        rw [← hreply.2.2]
  split_ifs at h
  · cases h
    exact hreqid
  · cases h
    exact hreqid
  · cases h
    exact hreqid

/-- ... by the loop, ... -/
theorem reloadLoop_reqid {M : Memory} {fuel : Nat} {l l' : Loading} {goOn : Bool}
    (h : reloadLoop M fuel l = some (goOn, l')) : l'.s.reqid = l.s.reqid := by
  induction fuel generalizing l with
  | zero => exact absurd h (by simp [reloadLoop])
  | succ fuel ih =>
    simp only [reloadLoop, Option.bind_eq_bind, Option.bind_eq_some_iff] at h
    rcases h with ⟨⟨rv, it, s⟩, hnext, h⟩
    have hreqid := tntNext_reqid hnext
    split_ifs at h
    · cases h
      exact hreqid
    · rcases Option.bind_eq_some_iff.mp h with ⟨⟨goOn₁, l₁⟩, hon, h⟩
      rcases onReply_keeps hon with ⟨hs₁, -⟩
      split_ifs at h
      · apply (ih h).trans
        rw [hs₁]
        exact hreqid
      · cases h
        rw [hs₁]
        exact hreqid

/-- ... and by all of the second half. -/
theorem readSchema_reqid {M : Memory} {s : TntStream} {schema : TntSchema} {rc : Int}
    {l : Loading} (h : readSchema M s schema = some (rc, l)) : l.s.reqid = s.reqid := by
  simp only [readSchema, Option.bind_eq_bind, Option.bind_eq_some_iff] at h
  rcases h with ⟨⟨goOn, l₁⟩, hloop, h⟩
  have hreqid : l₁.s.reqid = s.reqid := reloadLoop_reqid hloop
  split_ifs at h
  · rcases Option.bind_eq_some_iff.mp h with ⟨l₂, hfin, h⟩
    rcases finishBkp_keeps hfin with ⟨hs₂, -⟩
    cases h
    rw [hs₂]
    exact hreqid
  · cases h
    exact hreqid

/-- What `tnt_stream_reqid` gave out is put back, whatever the requests have done to the counter. -/
theorem askSchema_reqid {M : Memory} {s s' : TntStream} (h : askSchema M s = some s') :
    s'.reqid = s.reqid.toUInt32.toUInt64 := by
  simp only [askSchema, tntStreamReqid, Option.bind_eq_bind, Option.bind_eq_some_iff, pure,
    Option.some.injEq] at h
  rcases h with ⟨⟨rc₁, s₁⟩, -, ⟨rc₂, s₂⟩, -, ⟨rc₃, s₃⟩, hflush, rfl⟩
  exact tntFlush_reqid hflush

/-- **The counter after a reload** has the lower 32 bits it had before, and no others.  Not only
where it succeeds: every return leads past the place that sets it. -/
theorem tntReloadSchema_reqid {M : Memory} {c c' : Conn} {rc : Int} (hconn : c.connected = true)
    (hzero : c.s.wrcnt = 0) (h : tntReloadSchema M c = some (rc, c')) :
    c'.s.reqid = c.s.reqid.toUInt32.toUInt64 := by
  have hguard : ¬ ((!c.connected) = true ∨ c.s.wrcnt ≠ 0) := by simp [hconn, hzero]
  simp only [tntReloadSchema, if_neg hguard, Option.bind_eq_bind, Option.bind_eq_some_iff, pure,
    Option.some.injEq] at h
  rcases h with ⟨s, hask, ⟨rc', l⟩, hread, h⟩
  cases h
  exact (readSchema_reqid hread).trans (askSchema_reqid hask)

omit [Msgpuck] in
/-- What passing a number through 32 bits does to it. -/
theorem cut_eq_iff (n : UInt64) : n.toUInt32.toUInt64 = n ↔ n < 2 ^ 32 := by
  rw [← UInt64.toNat_inj, UInt64.lt_iff_toNat_lt, UInt32.toNat_toUInt64, UInt64.toNat_toUInt32]
  show n.toNat % 2 ^ 32 = n.toNat ↔ n.toNat < 2 ^ 32
  constructor
  · intro h
    rw [← h]
    exact Nat.mod_lt _ (by decide)
  · exact Nat.mod_eq_of_lt

end Counter

/-- **When a reload leaves the request counter alone**: on every path, exactly if the counter fits
the 32 bits of `tnt_stream_reqid`.  The function puts the counter aside and back through a function
whose argument and result have 32 bits.  It does so wherever it returns, so the condition is the
same on every path. -/
theorem reload_reqid_iff [Msgpuck] {M : Memory} {c c' : Conn} {rc : Int}
    (hconn : c.connected = true) (hzero : c.s.wrcnt = 0)
    (h : tntReloadSchema M c = some (rc, c')) :
    c'.s.reqid = c.s.reqid ↔ c.s.reqid < 2 ^ 32 := by
  rw [tntReloadSchema_reqid hconn hzero h]
  exact cut_eq_iff c.s.reqid

/-- A connection over which that many requests have gone. -/
def countedConn (reqid : UInt64) (incoming : Bytes) : Conn :=
  { demoConn incoming with s := { (demoConn incoming).s with reqid := reqid } }

/-- A reload succeeds whatever the counter is, ... -/
theorem countedConn_reloads (reqid : UInt64) :
    ∃ c', @tntReloadSchema Msgpuck.reference demoMemory
      (countedConn reqid (testSpaces.bytes ++ (testIndexes.bytes ++ []))) = some (0, c') := by
  let _ := Msgpuck.reference
  rcases reload_spaces_first demoMemory_lasts
    (c := countedConn reqid (testSpaces.bytes ++ (testIndexes.bytes ++ []))) (demoConn_ready _)
    (Nat.le_refl 64) rfl rfl testSpaces_answers testIndexes_answers rfl with
    ⟨c', hreload, -⟩
  exact ⟨c', hreload⟩

/-- ... and leaves a small one as it is. -/
theorem reload_reqid_test :
    ∃ c', @tntReloadSchema Msgpuck.reference demoMemory
        (countedConn 5 (testSpaces.bytes ++ (testIndexes.bytes ++ []))) = some (0, c') ∧
      c'.s.reqid = 5 := by
  let _ := Msgpuck.reference
  rcases countedConn_reloads 5 with ⟨c', hreload⟩
  exact ⟨c', hreload, (reload_reqid_iff rfl rfl hreload).mpr (by decide)⟩

/-- After `2^32 + 5` requests the counter goes back to 5. -/
theorem reload_reqid_wraps :
    ∃ c', @tntReloadSchema Msgpuck.reference demoMemory
        (countedConn (2 ^ 32 + 5) (testSpaces.bytes ++ (testIndexes.bytes ++ []))) = some (0, c') ∧
      c'.s.reqid = 5 ∧
      c'.s.reqid ≠ (countedConn (2 ^ 32 + 5) (testSpaces.bytes ++ (testIndexes.bytes ++ []))).s.reqid := by
  let _ := Msgpuck.reference
  rcases countedConn_reloads (2 ^ 32 + 5) with ⟨c', hreload⟩
  have hfive : c'.s.reqid = 5 := tntReloadSchema_reqid rfl rfl hreload
  refine ⟨c', hreload, hfive, ?_⟩
  rw [hfive]
  show (5 : UInt64) ≠ 2 ^ 32 + 5
  decide

end TarantoolC.Schema
