/-
# TarantoolC.Login — connecting with a user and a password (`tnt_connect`, `tnt_authenticate`).

Behind `tnt_io_connect` the server speaks first: 128 bytes of greeting, with a salt in them.  The
client answers with a request that carries a scramble, reads one reply, and if that is not an error it
loads the schema.  Everything runs over the buffers of the stream and the transport below.

`connect_logs_in` follows a conversation that succeeds byte for byte, `connect_refused` one in which
the server says no, and `connect_unnoticed` one in which it was never asked.

## The parts.

* the error of the stream — `tnt_error` keeps what a call set, and a call that does not fail leaves
  it alone (§2); so what `tnt_connect` reports comes from the one place that set it;
* writing — `Puts s s' bs n`: a call has put `bs` on its way, in the buffer or beyond, and `n`
  requests more are outstanding (§3).  It composes, so the auth request and the two selects are
  three uses of one lemma;
* reading — `OnlyRead`: a call has taken bytes off what was to come, and nothing else (§5);
* `tnt_authenticate` in its three courses (§6), and `tnt_connect` with the greeting in front (§7).

## What is assumed.

A login is followed on a transport that does not fail (it may cut what it carries anywhere), with
memory for the requests and the replies, for a user that is not the guest and a salt of 20 bytes or
more (`Opening`).  The send buffer has 64 bytes or is not there; whether the auth request fits into
it is a hypothesis of its own, since a long name need not fit, and then the course is the one of
`connect_unnoticed`.  The replies are well formed; what the rows of the schema hold is not
restricted, and an allocator that has no memory for some names is allowed for: the schema then ends
at the row that got none.
-/
import TarantoolC.Request.Challenge
import TarantoolC.Session

namespace TarantoolC.Login

open MsgPack Msgpuck Proto Object Reply Io Net Request Schema Session

/-! ## §1 — the code.

A client is a connection of `TarantoolC.Schema.Reload` with what the login needs besides: the URI,
the greeting and the error.  Transport and buffers are those of `TarantoolC.Io`. -/

/-- `TNT_GREETING_SIZE`. -/
def greetingSize : Nat := 128

/-- `TNT_ER_PASSWORD_MISMATCH`. -/
def erPasswordMismatch : Nat := 47

/-- What `tnt_connect` uses of the URI; `none` is `NULL`. -/
structure Uri where
  login : Option Bytes
  password : Option Bytes

/-- What `tnt_connect` uses of a stream, which `tnt_init` has prepared. -/
structure Client where
  conn : Schema.Conn
  greeting : Bytes
  uri : Uri

def Client.withStream (c : Client) (s : TntStream) : Client := { c with conn := { c.conn with s := s } }

/-- `sn->error = e`. -/
def Client.withError (c : Client) (e : TntError) : Client :=
  { c with conn := { c.conn with s := { c.conn.s with net := { c.conn.s.net with error := e } } } }

section Code

variable [Msgpuck] [Digest]

/-- `tnt_authenticate`.  Nobody looks at what `tnt_auth`, `tnt_flush` and `tnt_reload_schema`
return. -/
def tntAuthenticate (M : Memory) (c : Client) : Option (Int × Client) :=
  if !c.conn.connected ∨ c.conn.s.wrcnt ≠ 0 then some (-1, c)
  else do
    let sent ← tntAuth c.conn.s.reqid c.uri.login (c.uri.password.getD []) c.greeting
    let (_, s) ← sendOn c.conn.s sent
    let (_, s) ← tntFlush s
    let (rc, rep, s) ← tntNetReply M.reply s zeroReply
    let c := c.withStream s
    if rc = -1 then some (-1, c)
    else if rep.error.isSome then
      some (-1, if rep.code = erPasswordMismatch then c.withError .login else c)
    else do
      let (_, conn) ← tntReloadSchema M c.conn
      return (0, { c with conn := conn })

/-- `tnt_connect`, up to `tnt_io_connect`. -/
def beforeConnect (c : Client) : Client :=
  if c.conn.connected then { c with conn := tntClose c.conn } else c

/-- `tnt_connect`; `reached` is what `tnt_io_connect` returns, and the transport it has opened.  The
addresses and descriptors behind that are in `TarantoolC.Io.Descriptors`, and
`TarantoolC.Login.Endpoint` puts the two together. -/
def tntConnect (M : Memory) (reached : TntError × Transport UInt8) (c : Client) :
    Option (Int × Client) := do
  let c := (beforeConnect c).withError reached.1
  if reached.1 ≠ .ok then some (-1, c)
  else do
    let c := { c with conn := connectedTo c.conn reached.2 }
    let (rc, got, net) ← tntIoRecv c.conn.s.net greetingSize
    let c := { c.withStream { c.conn.s with net := net } with
      greeting := got ++ c.greeting.drop got.length }
    if rc = -1 ∨ net.error ≠ .ok then some (-1, c)
    else if c.uri.login.isSome ∧ c.uri.password.isSome then do
      let (rc, c) ← tntAuthenticate M c
      return (if rc = -1 then -1 else 0, c)
    else some (0, c)

end Code

/-! ## §2 — the error of the stream.

A call that does not fail leaves it as it is. -/

/-- Receiving, ... -/
theorem recvRawLoop_error {size fuel : Nat} {all : Bool} {s s' : StreamNet UInt8} {out got : Bytes}
    {rc : Int} (h : recvRawLoop size all fuel s out = some (rc, got, s')) (hok : rc ≠ -1) :
    s'.error = s.error := by
  induction fuel generalizing s out with
  | zero => cases h
  | succ fuel ih =>
    simp only [recvRawLoop] at h
    split_ifs at h
    · cases h
      exact absurd rfl hok
    · have hrest := ih h
      exact hrest
    · cases h
      rfl

/-- ... through the buffer, ... -/
theorem recvLoop_error {size fuel left : Nat} {block out got : Bytes} {s s' : StreamNet UInt8}
    {rc : Int} (h : recvLoop size block fuel left s out = some (rc, got, s')) (hok : rc ≠ -1) :
    s'.error = s.error := by
  induction fuel generalizing left block s out with
  | zero => cases h
  | succ fuel ih =>
    simp only [recvLoop] at h
    split_ifs at h
    · cases h
      rfl
    all_goals
      split at h
      · cases h
      next top bytes s₁ hraw =>
      split_ifs at h with htop hrest
      · cases h
        exact absurd rfl hok
      all_goals have hsame := recvRawLoop_error hraw (by omega)
      · cases h
        exact hsame
      · exact (ih h).trans hsame

/-- ... or in one call; ... -/
theorem tntIoRecv_error {s s' : StreamNet UInt8} {size : Nat} {got : Bytes} {rc : Int}
    (h : tntIoRecv s size = some (rc, got, s')) (hok : rc ≠ -1) : s'.error = s.error := by
  unfold tntIoRecv at h
  split at h
  · exact recvRawLoop_error h hok
  · exact recvLoop_error h hok

/-- ... sending a string, ... -/
theorem sendRawLoop_error {buf : Bytes} {all : Bool} {fuel off : Nat} {s s' : StreamNet UInt8}
    {rc : Int} (h : sendRawLoop buf all fuel s off = some (rc, s')) (hok : rc ≠ -1) :
    s'.error = s.error := by
  induction fuel generalizing s off with
  | zero => cases h
  | succ fuel ih =>
    simp only [sendRawLoop] at h
    split_ifs at h
    · cases h
      exact absurd rfl hok
    · have hrest := ih h
      exact hrest
    · cases h
      rfl

/-- ... or a vector, ... -/
theorem sendvRawLoop_error {all : Bool} {fuel total : Nat} {s s' : StreamNet UInt8}
    {iov : List Bytes} {rc : Int} (h : sendvRawLoop all fuel s iov total = some (rc, s'))
    (hok : rc ≠ -1) : s'.error = s.error := by
  induction fuel generalizing s iov total with
  | zero => cases h
  | succ fuel ih =>
    simp only [sendvRawLoop] at h
    by_cases hmore : iov.length > 0
    · rw [if_pos hmore] at h
      split_ifs at h
      all_goals first
        | (have hrest := ih h; exact hrest)
        | (cases h; first | rfl | exact absurd rfl hok)
    · rw [if_neg hmore] at h
      cases h
      rfl

/-- ... in any call. -/
theorem sendCall_error {s s' : StreamNet UInt8} {op : SendOp UInt8} {rc : Int}
    (h : sendCall s op = some (rc, s')) (hok : rc ≠ -1) : s'.error = s.error := by
  cases op with
  | send buf =>
    simp only [sendCall, tntIoSend] at h
    split at h
    · exact sendRawLoop_error h hok
    · split_ifs at h
      · cases h
        exact absurd rfl hok
      · obtain ⟨block, -, h⟩ := Option.bind_eq_some_iff.mp h
        cases h
        rfl
      · -- the rest of the buffer goes out first
        obtain ⟨⟨r, s₁⟩, hraw, h⟩ := Option.bind_eq_some_iff.mp h
        split_ifs at h with hr
        · cases h
          exact absurd rfl hok
        · obtain ⟨put, -, h⟩ := Option.bind_eq_some_iff.mp h
          cases h
          have hsame := sendRawLoop_error hraw hr
          exact hsame
  | sendv iov =>
    simp only [sendCall, tntIoSendv] at h
    split at h
    · exact sendvRawLoop_error h hok
    · split_ifs at h
      · cases h
        exact absurd rfl hok
      · obtain ⟨block, -, h⟩ := Option.bind_eq_some_iff.mp h
        cases h
        rfl
      · -- the rest of the buffer goes out first
        obtain ⟨⟨r, s₁⟩, hraw, h⟩ := Option.bind_eq_some_iff.mp h
        split_ifs at h with hr
        · cases h
          exact absurd rfl hok
        · obtain ⟨put, -, h⟩ := Option.bind_eq_some_iff.mp h
          cases h
          have hsame := sendRawLoop_error hraw hr
          exact hsame
  | flush =>
    simp only [sendCall, tntIoFlush] at h
    split_ifs at h
    · cases h
      rfl
    · obtain ⟨⟨r, s₁⟩, hraw, h⟩ := Option.bind_eq_some_iff.mp h
      split_ifs at h with hr
      · cases h
        exact absurd rfl hok
      · cases h
        have hsame := sendRawLoop_error hraw hr
        exact hsame

/-! ## §3 — writing.

Whatever a request is, to make it is to put bytes on their way and to count one request.  `Puts`
says no more than this, so it does not matter whether the bytes are in the buffer, at the transport,
or partly here and there. -/

/-- The send buffer takes a message of `n` bytes, or there is none. -/
def Room (s : StreamNet UInt8) (n : Nat) : Prop := s.sbuf.size = 0 ∨ n ≤ s.sbuf.size

/-- From `s` to `s'` the bytes `bs` were written, in `n` requests.  They are in the log: part of
them may be with the transport already and part in the send buffer. -/
structure Puts (s s' : TntStream) (bs : Bytes) (n : Nat) : Prop where
  ready : Ready s'.net
  toCome : s'.net.toCome = s.net.toCome
  iovmax : s'.net.io.iovmax = s.net.io.iovmax
  size : s'.net.sbuf.size = s.net.sbuf.size
  log : s'.net.log = s.net.log ++ bs
  wrcnt : s'.wrcnt = (s.wrcnt + n) % 2 ^ 32

/-- Two calls put their bytes one behind the other. -/
theorem Puts.trans {s s' s'' : TntStream} {bs bs' : Bytes} {n m : Nat} (h : Puts s s' bs n)
    (h' : Puts s' s'' bs' m) : Puts s s'' (bs ++ bs') (n + m) where
  ready := h'.ready
  toCome := h'.toCome.trans h.toCome
  iovmax := h'.iovmax.trans h.iovmax
  size := h'.size.trans h.size
  log := by rw [h'.log, h.log, List.append_assoc]
  wrcnt := by rw [h'.wrcnt, h.wrcnt, Nat.mod_add_mod, Nat.add_assoc]

/-- A message for which there is room.  It has one byte at least and no more pieces than the
transport takes at once, and either there is no send buffer or it fits in. -/
theorem tntNetWritev_puts {s : TntStream} (hready : Ready s.net) {iov : List Bytes}
    (hpos : 1 ≤ iov.flatten.length) (hcount : iov.length ≤ s.net.io.iovmax)
    (hroom : Room s.net iov.flatten.length) :
    ∃ rc s', tntNetWritev s iov = some (rc, s') ∧ Puts s s' iov.flatten 1 ∧ s'.reqid = s.reqid ∧
      s'.net.error = s.net.error := by
  obtain ⟨rc, net, hcall, hkept, hfine, -⟩ :=
    @sendCall_reliable _ _ hready.sending hready.reliable (.sendv iov) ⟨hpos, hcount⟩
  have hrc : rc ≠ -1 := by
    have hends := hfine.2
    dsimp only at hends
    split_ifs at hends with hbig
    · -- a buffer that is too small: there is room
      obtain ⟨hbuf, hlt⟩ := hbig
      have hsize : s.net.sbuf.size ≠ 0 := by
        intro hzero
        obtain ⟨block, hblock⟩ := Option.isSome_iff_exists.mp hbuf
        have hsized := hready.sending.sized
        rw [Iob.Sized, hblock] at hsized
        have hpos := hsized.2
        omega
      have hlt' : s.net.sbuf.size < iov.flatten.length := hlt
      rcases hroom with hzero | hle <;> omega
    · omega
  have hwrite : tntNetWritev s iov = some (rc, TntStream.countUp { s with net := net }) := by
    simp only [tntNetWritev, netWrite, hcall, bind, Option.bind_some, if_pos hrc]
  obtain ⟨hreqid, hmax, hready', hcome, hcnt, hlog⟩ := tntNetWritev_log hready hpos hcount hwrite
  rw [if_neg hrc] at hcnt hlog
  exact ⟨rc, _, hwrite, ⟨hready', hcome, hmax, hkept.size_eq, hlog, hcnt⟩, hreqid,
    sendCall_error hcall hrc⟩

/-- A flush puts nothing new on its way, and empties the buffer.  All of it has been taken by the
transport then, since that does not fail. -/
theorem tntFlush_puts {s : TntStream} (hready : Ready s.net) (hlt : s.wrcnt < 2 ^ 32) :
    ∃ rc s', tntFlush s = some (rc, s') ∧ Puts s s' [] 0 ∧ s'.reqid = s.reqid ∧
      s'.net.sbuf.off = 0 ∧ s'.net.error = s.net.error := by
  obtain ⟨rc, net, hcall, hkept, ⟨-, hpos, hzero⟩, -⟩ :=
    @sendCall_reliable _ _ hready.sending hready.reliable .flush trivial
  obtain ⟨hready', hcome⟩ := hready.sendCall hcall
  have hpos' : 0 ≤ rc := hpos
  have hflush : tntFlush s = some (rc, { s with net := net }) := by
    simp only [tntFlush, hcall, bind, Option.bind_some, pure]
  obtain ⟨⟨hlog, hmax⟩, -⟩ := tntFlush_kept hready hflush
  refine ⟨rc, _, hflush, ⟨hready', hcome, hmax, hkept.size_eq, ?_, (Nat.mod_eq_of_lt hlt).symm⟩, rfl,
    hzero, sendCall_error hcall (by omega)⟩
  rw [hlog, List.append_nil]

/-! ## §4 — the selects of a reload.

The two differ in the number of the system space and in their sync.  Each fits a buffer of 64 bytes. -/

/-- What both ask for. -/
def selectPairs (space : Nat) : List (BodyKey × Value) :=
  [(.space, .uint space), (.index, .uint 2), (.limit, .uint (2 ^ 32 - 1)), (.offset, .uint 0),
    (.iterator, .uint 2), (.key, .array [])]

/-- A length takes a byte at least. -/
theorem lengthPrefix_length_pos (n : Nat) : 1 ≤ (lengthPrefix n).length := by
  unfold lengthPrefix
  split_ifs
  · exact Nat.succ_le_succ (Nat.zero_le _)
  · exact Nat.succ_le_succ (Nat.zero_le _)

section Selects

variable [Msgpuck]

/-- **A select of a whole space** goes out.  The vector is made of numbers that are known, so its
length is, and it fits the room there is. -/
theorem selectAll_puts {M : Memory} (hM : M.Lasts) {s : TntStream} (hready : Ready s.net)
    (hmax : 16 ≤ s.net.io.iovmax) (hroom : Room s.net 64) (space : UInt32) :
    ∃ rc s' wire, selectAll space M s = some (rc, s') ∧ Puts s s' wire 1 ∧
      s'.reqid = s.reqid + 1 ∧ Carries wire .select s.reqid.toNat (selectPairs space.toNat) := by
  obtain ⟨stack, hstack, hlen⟩ := hM.stack
  obtain ⟨rv, key, hkey, hbytes⟩ := tntObjectAddArray_empty hM.obj hlen
  obtain ⟨iov, hselect, hfit⟩ := @selectAll_iov _ s.reqid space _ hbytes
  have hempty : Encodes (.array []) key.s.sb.bytes := by
    rw [hbytes]
    exact encodes_encodeWith packed_sound (.array []) ⟨by decide, trivial⟩
  let r : Direct := .select space 2 (UInt32.ofNat (2 ^ 32 - 1)) 0 2 key.s.sb
  have hexec : @Direct.exec _ zeroDigest s.reqid r = some (.writev iov, s.reqid + 1) := hselect
  have hcount : iov.length ≤ 6 := by
    rcases @exec_ends zeroDigest _ _ r _ _ hexec with ⟨hno, -⟩ | ⟨iov', hiov, -, hle⟩
    · cases hno
    · cases hiov
      exact hle
  -- the vector is the message of the protocol
  obtain ⟨v, hv, hflat⟩ := @Direct.exec_sends _ zeroDigest r s.reqid trivial ⟨[], hempty⟩
  rw [hexec] at hv
  cases hv
  have hsize : (packageWire .select s.reqid.toNat (@Direct.fields zeroDigest r)).length < 2 ^ 64 := by
    have hpackage : v.flatten = packageWire .select s.reqid.toNat (@Direct.fields zeroDigest r) := hflat
    rw [List.flatten_cons, List.length_append] at hfit
    rw [← hpackage]
    omega
  obtain ⟨iov', hsend, hwire⟩ := sendPackage_wire hflat hsize
  cases hsend
  have hreads : List.Forall₂ Field.Reads (@Direct.fields zeroDigest r) (selectPairs space.toNat) :=
    .cons (numField_reads .space space) (.cons (numField_reads .index 2)
      (.cons (numField_reads .limit (UInt32.ofNat (2 ^ 32 - 1))) (.cons (numField_reads .offset 0)
        (.cons (numField_reads .iterator 2) (.cons ⟨rfl, .object hempty⟩ .nil)))))
  have hcarries := messageWire_carries .select s.reqid.toNat_lt hreads (show 6 < 2 ^ 32 by decide)
  have hwire' : List.flatten (_ :: v) =
      messageWire .select s.reqid.toNat (@Direct.fields zeroDigest r) := hwire
  have hpos : 1 ≤ (messageWire .select s.reqid.toNat (@Direct.fields zeroDigest r)).length := by
    rw [messageWire, List.length_append]
    exact Nat.le_add_right_of_le (lengthPrefix_length_pos _)
  rw [← hwire'] at hcarries hpos
  obtain ⟨rc, s', hwrite, hputs, hreqid, -⟩ := @tntNetWritev_puts { s with reqid := s.reqid + 1 } hready
    _ hpos (hcount.trans (Nat.le_trans (by decide) hmax)) (hroom.imp_right fun hle => hfit.trans hle)
  refine ⟨rc, s', _, ?_, ⟨hputs.ready, hputs.toCome, hputs.iovmax, hputs.size, hputs.log,
    hputs.wrcnt⟩, hreqid, hcarries⟩
  simp only [selectAll, hstack, hkey, hselect, Option.bind_eq_bind, Option.bind_some, sendOn, hwrite]

/-- **Both selects go out.**  One after the other, with the counter put back behind them. -/
theorem askSchema_puts {M : Memory} (hM : M.Lasts) {s : TntStream} (hready : Ready s.net)
    (hmax : 16 ≤ s.net.io.iovmax) (hroom : Room s.net 64) (hidle : s.wrcnt = 0) :
    ∃ s' w₁ w₂, askSchema M s = some s' ∧ Puts s s' (w₁ ++ w₂) 2 ∧ s'.net.sbuf.off = 0 ∧
      Carries w₁ .select 127 (selectPairs 281) ∧ Carries w₂ .select 128 (selectPairs 289) := by
  obtain ⟨rc₁, s₁, w₁, hspace, hputs₁, hreqid₁, hcarries₁⟩ :=
    @selectAll_puts _ M hM { s with reqid := 127 } hready hmax hroom 281
  -- the first select leaves the stream fit for the second
  have hroom₁ : Room s₁.net 64 := by
    rw [Room, hputs₁.size]
    exact hroom
  have hmax₁ : 16 ≤ s₁.net.io.iovmax := by
    rw [hputs₁.iovmax]
    exact hmax
  obtain ⟨rc₂, s₂, w₂, hindex, hputs₂, -, hcarries₂⟩ :=
    selectAll_puts hM hputs₁.ready hmax₁ hroom₁ 289
  rw [hreqid₁] at hcarries₂
  -- both together
  have hboth := hputs₁.trans hputs₂
  have htwo : s₂.wrcnt = 2 := by
    have hcnt := hboth.wrcnt
    have hzero : (TntStream.mk s.wrcnt 127 s.net).wrcnt = 0 := hidle
    omega
  -- the old number is put back, and all is sent
  obtain ⟨rc₃, s₃, hflush, hputs₃, -, hoff, -⟩ :=
    @tntFlush_puts { s₂ with reqid := s.reqid.toUInt32.toUInt64 } hboth.ready
      (by show s₂.wrcnt < 2 ^ 32; omega)
  refine ⟨s₃, w₁, w₂, ?_, ?_, hoff, hcarries₁, hcarries₂⟩
  · have hspace' : selectAll 281 M { s with reqid := UInt32.toUInt64 127 } = some (rc₁, s₁) := hspace
    simp only [askSchema, tntStreamReqid, tntGetSpace, hspace', tntGetIndex, hindex, hflush,
      Option.bind_eq_bind, Option.bind_some, pure]
  · have hall := hboth.trans (Puts.mk hputs₃.ready hputs₃.toCome hputs₃.iovmax hputs₃.size
      hputs₃.log hputs₃.wrcnt)
    rw [List.append_nil] at hall
    exact ⟨hall.ready, hall.toCome, hall.iovmax, hall.size, hall.log, hall.wrcnt⟩

/-! ## §5 — reading.

Reading never writes; that is `OnlyRead`, and it is kept by every step of the reload behind its two
selects.  So what was accepted by the transport up to there is all that was sent. -/

/-- Reading a reply leaves the error alone. -/
theorem tntReplyFrom_error {alloc : Nat → Bool} {s s' : StreamNet UInt8} {rc : Int} {r : TntReply}
    (h : tntReplyFrom alloc tntIoRecv s = some (rc, r, s')) (hok : rc ≠ -1) : s'.error = s.error := by
  obtain ⟨rc₁, length, s₁, hfirst, ⟨hfail, -⟩ | ⟨-, hrc₁, size, q, rc₂, buf, -, hsecond, hrc₂, -⟩⟩ :=
    tntReplyFrom_cases h
  · exact absurd hfail hok
  · exact (tntIoRecv_error hsecond hrc₂).trans (tntIoRecv_error hfirst hrc₁)

/-- A call of `tnt_net_reply` that has something to wait for, in terms of `tnt_reply_from`.
Everything a login reads is read through it. -/
theorem tntNetReply_from {alloc : Nat → Bool} {s s' : TntStream} (hcnt : s.wrcnt ≠ 0) {rc : Int}
    {r₀ r : TntReply} (h : tntNetReply alloc s r₀ = some (rc, r, s')) :
    tntReplyFrom alloc tntIoRecv s.net = some (rc, r, s'.net) := by
  simp only [tntNetReply, if_neg hcnt, Option.bind_eq_bind, Option.bind_eq_some_iff] at h
  obtain ⟨⟨rc', r', net⟩, hfrom, h⟩ := h
  split_ifs at h
  · rw [Option.some_inj, Prod.mk.injEq, Prod.mk.injEq] at h
    rw [← h.1, ← h.2.1, ← h.2.2, TntStream.countDown]
    exact hfrom
  · rw [Option.some_inj, Prod.mk.injEq, Prod.mk.injEq] at h
    rw [← h.1, ← h.2.1, ← h.2.2]
    exact hfrom

/-- **The only reply that is outstanding**, a final one.  With it the counter is at 0 again, and
nothing of what follows it has been taken. -/
theorem tntNetReply_reads {alloc : Nat → Bool} (halloc : ∀ n, alloc n = true) {s : TntStream}
    (hready : Ready s.net) (hone : s.wrcnt = 1) {w : WireReply} (hw : w.IsFinal) {rest : Bytes}
    (hcome : s.net.toCome = w.bytes ++ rest) :
    ∃ r s', tntNetReply alloc s zeroReply = some (0, r, s') ∧ w.ReadAs r ∧ Ready s'.net ∧
      s'.net.toCome = rest ∧ s'.wrcnt = 0 ∧ s'.net.sbuf = s.net.sbuf ∧
      s'.net.error = s.net.error ∧ s'.net.io.accepted = s.net.io.accepted ∧
      s'.net.io.iovmax = s.net.io.iovmax := by
  have hcnt : s.wrcnt ≠ 0 := by omega
  obtain ⟨r, net, hreply, hread, hready', hcome'⟩ := tntNetReply_spec halloc hready hcnt hcome zeroReply
  rw [if_pos (hread.final_test hw)] at hreply
  have hfrom := tntNetReply_from hcnt hreply
  obtain ⟨-, hsbuf, hio⟩ := tntReplyFrom_after hready.rbuf hfrom
  have hdown : (TntStream.countDown { s with net := net }).wrcnt = s.wrcnt - 1 :=
    countDown_wrcnt hcnt (by show s.wrcnt < 2 ^ 32; omega)
  refine ⟨r, _, hreply, hread, hready', hcome', ?_, hsbuf,
    tntReplyFrom_error hfrom (by decide), hio.accepted, hio.iovmax⟩
  rw [hdown, hone]

/-- From `s` to `s'` something was read, and nothing written. -/
structure OnlyRead (s s' : StreamNet UInt8) : Prop where
  rbuf : s'.rbuf.WF
  sbuf : s'.sbuf = s.sbuf
  io : s.io.AfterRecv s'.io

omit [Msgpuck] in
/-- A stream that has only been read from can still be used. -/
theorem OnlyRead.ready {s s' : StreamNet UInt8} (h : OnlyRead s s') (hready : Ready s) :
    Ready s' := by
  refine ⟨h.rbuf, ?_, ?_⟩
  · rw [h.sbuf]
    exact hready.sending
  · rintro n ⟨e, he⟩
    exact hready.reliable n ⟨e, by rw [← h.io.move]; exact he⟩

/-- The loop of a reload only reads, ... -/
theorem reloadLoop_reads_only {M : Memory} {fuel : Nat} {l l' : Loading} {goOn : Bool}
    (hrbuf : l.s.net.rbuf.WF) (h : reloadLoop M fuel l = some (goOn, l')) :
    OnlyRead l.s.net l'.s.net := by
  induction fuel generalizing l with
  | zero => exact absurd h (by simp [reloadLoop])
  | succ fuel ih =>
    simp only [reloadLoop, Option.bind_eq_bind, Option.bind_eq_some_iff] at h
    obtain ⟨⟨rv, it, s⟩, hnext, h⟩ := h
    have hwf := (tntNext_cases hrbuf hnext).1
    obtain ⟨hsbuf, hio⟩ := tntNext_after hrbuf hnext
    split_ifs at h with hrv
    · cases h
      exact ⟨hwf, hsbuf, hio⟩
    · obtain ⟨⟨goOn₁, l₁⟩, hon, h⟩ := Option.bind_eq_some_iff.mp h
      have hs₁ : l₁.s = s := (onReply_keeps hon).1
      split_ifs at h with hgo
      · obtain ⟨hrbuf', hsbuf', hio'⟩ := ih (by rw [hs₁]; exact hwf) h
        rw [hs₁] at hsbuf' hio'
        exact ⟨hrbuf', hsbuf'.trans hsbuf, hio.trans hio'⟩
      · cases h
        rw [hs₁]
        exact ⟨hwf, hsbuf, hio⟩

/-- ... and so does the rest of it. -/
theorem readSchema_reads_only {M : Memory} {s : TntStream} (hrbuf : s.net.rbuf.WF)
    {schema : TntSchema} {rc : Int} {l : Loading} (h : readSchema M s schema = some (rc, l)) :
    OnlyRead s.net l.s.net := by
  simp only [readSchema, Option.bind_eq_bind, Option.bind_eq_some_iff] at h
  obtain ⟨⟨goOn, l₁⟩, hloop, h⟩ := h
  have hread := reloadLoop_reads_only hrbuf hloop
  split_ifs at h
  · obtain ⟨l₂, hfin, h⟩ := Option.bind_eq_some_iff.mp h
    cases h
    rw [(finishBkp_keeps hfin).1]
    exact hread
  · cases h
    exact hread

/-- An idle connection with room for the selects. -/
structure Idle (c : Schema.Conn) : Prop where
  ready : Ready c.s.net
  iovmax : 16 ≤ c.s.net.io.iovmax
  room : Room c.s.net 64
  connected : c.connected = true
  wrcnt : c.s.wrcnt = 0

/-- A stream with nothing in its send buffer, which can go on to write and to read. -/
structure Quiet (s : TntStream) : Prop where
  ready : Ready s.net
  iovmax : 16 ≤ s.net.io.iovmax
  off : s.net.sbuf.off = 0

/-- **A reload** asks twice, and what is left is to read.  What the client sends does not depend on
what the server answers, so the two halves can be looked at apart. -/
theorem reload_asks {M : Memory} (hM : M.Lasts) {c : Schema.Conn} (hc : Idle c) :
    ∃ s w₁ w₂, Ready s.net ∧ s.wrcnt = 2 ∧ s.net.toCome = c.s.net.toCome ∧
      Carries w₁ .select 127 (selectPairs 281) ∧ Carries w₂ .select 128 (selectPairs 289) ∧
      ∀ {rc l}, readSchema M s c.schema = some (rc, l) →
        tntReloadSchema M c = some (rc, { c with s := l.s, schema := l.schema }) ∧ Quiet l.s ∧
        l.s.net.io.accepted = c.s.net.log ++ (w₁ ++ w₂) := by
  obtain ⟨s, w₁, w₂, hask, hputs, hoff, hcarries₁, hcarries₂⟩ :=
    askSchema_puts hM hc.ready hc.iovmax hc.room hc.wrcnt
  have htwo : s.wrcnt = 2 := by
    have hcnt := hputs.wrcnt
    rw [hc.wrcnt] at hcnt
    omega
  have hguard : ¬ ((!c.connected) = true ∨ c.s.wrcnt ≠ 0) := by simp [hc.connected, hc.wrcnt]
  refine ⟨s, w₁, w₂, hputs.ready, htwo, hputs.toCome, hcarries₁, hcarries₂, fun hread => ⟨?_, ?_, ?_⟩⟩
  · simp only [tntReloadSchema, if_neg hguard, hask, hread, Option.bind_eq_bind, Option.bind_some,
      pure]
  · have honly := readSchema_reads_only hputs.ready.rbuf hread
    refine ⟨honly.ready hputs.ready, ?_, ?_⟩
    · rw [honly.io.iovmax, hputs.iovmax]
      exact hc.iovmax
    · rw [honly.sbuf, hoff]
  · have hio := (readSchema_reads_only hputs.ready.rbuf hread).io
    have hlog := hputs.log
    rw [StreamNet.log, Iob.front, hoff, List.take_zero, List.append_nil] at hlog
    rw [hio.accepted, hlog]

/-- A reload that takes both replies.  In either order of arrival, with rows of any kind. -/
theorem reload_answered {M : Memory} (hM : M.Lasts) {c : Schema.Conn} (hc : Idle c)
    {ws wi : WireReply} {spaces : List SpaceRow} {indexes : List IndexRow}
    (hs : Answers ws 127 (spaces.map SpaceRow.value))
    (hi : Answers wi 128 (indexes.map IndexRow.value)) {rest : Bytes}
    (hcome : Coming ws wi rest c.s.net.toCome) :
    ∃ c' w₁ w₂, tntReloadSchema M c = some (0, c') ∧ Quiet c'.s ∧ c'.connected = true ∧
      c'.schema = loaded M.name c.schema spaces indexes ∧ c'.s.wrcnt = 0 ∧ c'.s.net.toCome = rest ∧
      c'.s.net.io.accepted = c.s.net.log ++ (w₁ ++ w₂) ∧
      Carries w₁ .select 127 (selectPairs 281) ∧ Carries w₂ .select 128 (selectPairs 289) := by
  obtain ⟨s, w₁, w₂, hready, htwo, hsame, hcarries₁, hcarries₂, hreload⟩ := reload_asks hM hc
  obtain ⟨rc, hadd⟩ := tntSchemaAddIndexes_loaded M.name c.schema spaces hi.encodes
  -- the order of the replies makes no difference
  obtain ⟨l, hread, hschema, hzero, hrest⟩ : ∃ l, readSchema M s c.schema = some (0, l) ∧
      l.schema = loaded M.name c.schema spaces indexes ∧ l.s.wrcnt = 0 ∧ l.s.net.toCome = rest := by
    rw [Coming, ← hsame] at hcome
    rcases hcome with hcome | hcome
    · obtain ⟨l, hread, hschema, -, hzero, hrest, -⟩ :=
        readSchema_spaces_first hM.reply hready htwo hs hi hcome hadd
      exact ⟨l, hread, hschema, hzero, hrest⟩
    · obtain ⟨l, hread, hschema⟩ := readSchema_indexes_first hM.reply hready htwo hs hi hcome hadd
      obtain ⟨rc, l', hread', -, hstep⟩ := readSchema_in_step hM.reply hready htwo c.schema
        (.inr (.inl ⟨indexes, hi⟩)) (.inl (.inl ⟨spaces, hs⟩)) hcome
      rw [hread] at hread'
      cases hread'
      obtain ⟨hzero, hrest⟩ := hstep.mpr hi.noError
      exact ⟨l, hread, hschema, hzero, hrest⟩
  obtain ⟨hrun, hquiet, hacc⟩ := hreload hread
  exact ⟨_, w₁, w₂, hrun, hquiet, hc.connected, hschema, hzero, hrest, hacc, hcarries₁, hcarries₂⟩

end Selects

/-! ## §6 — `tnt_authenticate`.

Its three courses.  They have the same beginning, `authenticate_asks`, and part at the reply: a
reply without an error, one with an error, and none at all since nothing was asked. -/

section Authenticate

variable [Msgpuck]

/-- A client with an answer to the challenge in its greeting. -/
structure Challenged (c : Client) (user pass salt : Bytes) : Prop where
  uri : c.uri = ⟨some user, some pass⟩
  short : user.length < 2 ^ 31
  noGuest : ¬ isGuest (some user)
  challenge : Challenges c.greeting salt
  long : scrambleSize ≤ salt.length

/-- What `tnt_auth` writes.  The greeting has a salt, so there is a scramble, and the package has
the user and the scramble in it. -/
theorem tntAuth_writes {c : Client} {user pass salt : Bytes} (hch : Challenged c user pass salt)
    (hc : Idle c.conn) :
    ∃ iov, @tntAuth _ codeDigest c.conn.s.reqid c.uri.login (c.uri.password.getD []) c.greeting =
        some (.writev iov, c.conn.s.reqid + 1) ∧
      1 ≤ iov.flatten.length ∧ iov.length ≤ c.conn.s.net.io.iovmax ∧
      iov.flatten = authWire c.conn.s.reqid user pass c.greeting ∧
      Carries iov.flatten .auth c.conn.s.reqid.toNat (authPairs user (scrambleFor salt pass)) := by
  obtain ⟨iov, hauth, hwire, hcarries⟩ := tntAuth_carries c.conn.s.reqid pass hch.challenge hch.long
    hch.short hch.noGuest
  have hcount : iov.length ≤ 6 := by
    have hexec : @Direct.exec _ codeDigest c.conn.s.reqid
        (.auth (some user) pass (c.greeting.drop versionSize)) = some (.writev iov, _) := hauth
    rcases @exec_ends codeDigest _ _ _ _ _ hexec with ⟨hno, -⟩ | ⟨iov', hiov, -, hle⟩
    · cases hno
    · cases hiov
      exact hle
  refine ⟨iov, ?_, ?_, hcount.trans (Nat.le_trans (by decide) hc.iovmax), hwire, hcarries⟩
  · rw [hch.uri]
    exact hauth
  · obtain ⟨package, body, hmessage, -⟩ := hcarries
    rw [hmessage, List.length_append]
    exact Nat.le_add_right_of_le (lengthPrefix_length_pos _)

/-- The first half of `tnt_authenticate`: the request goes out.  It is flushed, so it is with the
server in full before the reply is waited for. -/
theorem authenticate_asks {c : Client} {user pass salt : Bytes} (hch : Challenged c user pass salt)
    (hc : Idle c.conn)
    (hroom : Room c.conn.s.net (authWire c.conn.s.reqid user pass c.greeting).length) :
    ∃ sent rc₁ s₁ rc₂ s₂,
      @tntAuth _ codeDigest c.conn.s.reqid c.uri.login (c.uri.password.getD []) c.greeting =
        some sent ∧
      sendOn c.conn.s sent = some (rc₁, s₁) ∧ tntFlush s₁ = some (rc₂, s₂) ∧
      Puts c.conn.s s₂ (authWire c.conn.s.reqid user pass c.greeting) 1 ∧ s₂.net.sbuf.off = 0 ∧
      s₂.net.error = c.conn.s.net.error ∧
      Carries (authWire c.conn.s.reqid user pass c.greeting) .auth c.conn.s.reqid.toNat
        (authPairs user (scrambleFor salt pass)) := by
  obtain ⟨iov, hauth, hpos, hcount, hwire, hcarries⟩ := tntAuth_writes hch hc
  rw [← hwire] at hroom ⊢
  obtain ⟨rc₁, s₁, hwrite, hputs₁, -, herror₁⟩ :=
    @tntNetWritev_puts { c.conn.s with reqid := c.conn.s.reqid + 1 } hc.ready iov hpos hcount hroom
  have hone : s₁.wrcnt = 1 := by
    have hcnt : s₁.wrcnt = (c.conn.s.wrcnt + 1) % 2 ^ 32 := hputs₁.wrcnt
    rw [hc.wrcnt] at hcnt
    omega
  obtain ⟨rc₂, s₂, hflush, hputs₂, -, hoff, herror₂⟩ := tntFlush_puts hputs₁.ready (by omega)
  have hall := hputs₁.trans hputs₂
  rw [List.append_nil] at hall
  exact ⟨_, rc₁, s₁, rc₂, s₂, hauth, hwrite, hflush,
    ⟨hall.ready, hall.toCome, hall.iovmax, hall.size, hall.log, hall.wrcnt⟩, hoff,
    herror₂.trans herror₁, hcarries⟩

/-- **`tnt_authenticate`** with a server that accepts: nothing but the reload is left.  The reply is
read before the reload asks, so that the replies to the selects are the first that are to come. -/
theorem authenticate_accepted {M : Memory} (hM : M.Lasts) {c : Client} {user pass salt : Bytes}
    (hch : Challenged c user pass salt) (hc : Idle c.conn)
    (hroom : Room c.conn.s.net (authWire c.conn.s.reqid user pass c.greeting).length)
    {w ws wi : WireReply} (hcode : w.code = 0) (hnone : ¬ w.HasError) {spaces : List SpaceRow}
    {indexes : List IndexRow} (hs : Answers ws 127 (spaces.map SpaceRow.value))
    (hi : Answers wi 128 (indexes.map IndexRow.value))
    {come rest : Bytes} (hcome : c.conn.s.net.toCome = w.bytes ++ come)
    (hreplies : Coming ws wi rest come) :
    ∃ c' w₁ w₂, @tntAuthenticate _ codeDigest M c = some (0, c') ∧ Quiet c'.conn.s ∧
      c'.conn.connected = true ∧
      c'.conn.schema = loaded M.name c.conn.schema spaces indexes ∧ c'.conn.s.wrcnt = 0 ∧
      c'.conn.s.net.toCome = rest ∧
      c'.conn.s.net.io.accepted =
        c.conn.s.net.log ++ authWire c.conn.s.reqid user pass c.greeting ++ (w₁ ++ w₂) ∧
      Carries (authWire c.conn.s.reqid user pass c.greeting) .auth c.conn.s.reqid.toNat
        (authPairs user (scrambleFor salt pass)) ∧
      Carries w₁ .select 127 (selectPairs 281) ∧ Carries w₂ .select 128 (selectPairs 289) := by
  obtain ⟨sent, rc₁, s₁, rc₂, s₂, hauth, hsend, hflush, hputs, -, -, hcarries⟩ :=
    authenticate_asks hch hc hroom
  have hone : s₂.wrcnt = 1 := by
    have hcnt := hputs.wrcnt
    rw [hc.wrcnt] at hcnt
    omega
  -- the answer has been read, and what is to come are the replies to the selects
  obtain ⟨r, s₃, hreply, hread, hready, hcome₃, hzero, hsbuf, -, hacc, hmax⟩ :=
    tntNetReply_reads hM.reply hputs.ready hone (.inl hcode) (hputs.toCome.trans hcome)
  have hnoerr : ¬ r.error.isSome = true := fun herr => hnone (hread.error_isSome_iff.mp herr)
  -- the connection is idle again, with the room it had
  have hidle : Idle { c.conn with s := s₃ } := by
    refine ⟨hready, ?_, ?_, hc.connected, hzero⟩
    · show 16 ≤ s₃.net.io.iovmax
      rw [hmax, hputs.iovmax]
      exact hc.iovmax
    · show Room s₃.net 64
      rw [Room, hsbuf, hputs.size]
      exact hc.room
  have hrepl : Coming ws wi rest
      (Schema.Conn.mk s₃ c.conn.connected c.conn.schema).s.net.toCome := by
    show Coming ws wi rest s₃.net.toCome
    rw [hcome₃]
    exact hreplies
  -- the reload asks for spaces and indexes
  obtain ⟨conn, w₁, w₂, hreload, hquiet, hconn, hschema, hzero', hrest, hacc', hcarries₁, hcarries₂⟩ :=
    reload_answered hM hidle hs hi hrepl
  have hguard : ¬ ((!c.conn.connected) = true ∨ c.conn.s.wrcnt ≠ 0) := by
    simp [hc.connected, hc.wrcnt]
  refine ⟨{ c with conn := conn }, w₁, w₂, ?_, hquiet, hconn, hschema, hzero', hrest, ?_, hcarries,
    hcarries₁, hcarries₂⟩
  · simp only [tntAuthenticate, if_neg hguard, hauth, hsend, hflush, hreply, Client.withStream,
      hreload, hnoerr, Option.bind_eq_bind, Option.bind_some, pure]
    rfl
  · have hlog : s₃.net.log = c.conn.s.net.log ++ authWire c.conn.s.reqid user pass c.greeting := by
      rw [← hputs.log, StreamNet.log, StreamNet.log, hsbuf, hacc]
    show conn.s.net.io.accepted = _
    rw [hacc', ← hlog]

/-- **`tnt_authenticate`** with a server that refuses.  The schema is not asked for.  The error of
the stream depends on the error code, and is set in no other case. -/
theorem authenticate_refused {M : Memory} (hM : ∀ n, M.reply n = true) {c : Client}
    {user pass salt : Bytes} (hch : Challenged c user pass salt) (hc : Idle c.conn)
    (hroom : Room c.conn.s.net (authWire c.conn.s.reqid user pass c.greeting).length)
    {w : WireReply} (hw : w.IsFinal) (herr : w.HasError) {rest : Bytes}
    (hcome : c.conn.s.net.toCome = w.bytes ++ rest) :
    ∃ c', @tntAuthenticate _ codeDigest M c = some (-1, c') ∧ c'.conn.connected = true ∧
      c'.conn.schema = c.conn.schema ∧ c'.conn.s.wrcnt = 0 ∧ c'.conn.s.net.toCome = rest ∧
      c'.conn.s.net.error =
        (if w.code % 2 ^ 15 = erPasswordMismatch then .login else c.conn.s.net.error) ∧
      c'.conn.s.net.io.accepted =
        c.conn.s.net.log ++ authWire c.conn.s.reqid user pass c.greeting ∧
      Carries (authWire c.conn.s.reqid user pass c.greeting) .auth c.conn.s.reqid.toNat
        (authPairs user (scrambleFor salt pass)) := by
  obtain ⟨sent, rc₁, s₁, rc₂, s₂, hauth, hsend, hflush, hputs, hoff, hkept, hcarries⟩ :=
    authenticate_asks hch hc hroom
  have hone : s₂.wrcnt = 1 := by
    have hcnt := hputs.wrcnt
    rw [hc.wrcnt] at hcnt
    omega
  -- the reply is the only one outstanding, so all that was to come before `rest` is read
  obtain ⟨r, s₃, hreply, hread, hready, hcome₃, hzero, hsbuf, herror, hacc, hmax⟩ :=
    tntNetReply_reads hM hputs.ready hone hw (hputs.toCome.trans hcome)
  have hsome : r.error.isSome = true := hread.error_isSome_iff.mpr herr
  have hcode : r.code = w.code % 2 ^ 15 := hread.tells.code
  have hguard : ¬ ((!c.conn.connected) = true ∨ c.conn.s.wrcnt ≠ 0) := by
    simp [hc.connected, hc.wrcnt]
  -- nothing is left in the send buffer: what was written has been accepted
  have hlog : s₃.net.io.accepted =
      c.conn.s.net.log ++ authWire c.conn.s.reqid user pass c.greeting := by
    have hlog := hputs.log
    rw [StreamNet.log, Iob.front, hoff, List.take_zero, List.append_nil] at hlog
    rw [hacc, hlog]
  have hrun : @tntAuthenticate _ codeDigest M c = some (-1,
      if r.code = erPasswordMismatch then (c.withStream s₃).withError .login
      else c.withStream s₃) := by
    simp only [tntAuthenticate, if_neg hguard, hauth, hsend, hflush, hreply, hsome,
      Option.bind_eq_bind, Option.bind_some, if_true, show ¬ (0 : Int) = -1 by decide, if_false]
  rw [hcode] at hrun
  -- one error code sets the error of the stream, all others leave it
  by_cases hmismatch : w.code % 2 ^ 15 = erPasswordMismatch
  · rw [if_pos hmismatch] at hrun ⊢
    exact ⟨_, hrun, hc.connected, rfl, hzero, hcome₃, rfl, hlog, hcarries⟩
  · rw [if_neg hmismatch] at hrun ⊢
    exact ⟨_, hrun, hc.connected, rfl, hzero, hcome₃, herror.trans hkept, hlog, hcarries⟩

end Authenticate

/-! ## §7 — `tnt_connect`.

`tnt_io_connect` is the beginning of all courses: a new transport, empty buffers, and 128 bytes of
greeting to be read over whatever pieces they come in (`connect_greets`).  Behind it stand the
lemmas of §6. -/

/-- A client that has been prepared: it is connected, or nothing is left in its buffers. -/
structure Usable (c : Client) : Prop where
  inv : c.conn.Inv
  greeting : c.greeting.length = greetingSize
  empty : c.conn.connected = false → c.conn.s.wrcnt = 0 ∧ c.conn.s.net.sbuf.off = 0 ∧
    c.conn.s.net.rbuf.unread = []

/-- The number of the first request over a new connection. -/
def firstNumber (c : Client) : UInt64 := if c.conn.connected then 0 else c.conn.s.reqid

/-- A stream with nothing in its buffers. -/
structure Blank (s : TntStream) : Prop where
  rbuf : s.net.rbuf.WF
  sending : s.net.sbuf.Sending
  wrcnt : s.wrcnt = 0
  off : s.net.sbuf.off = 0
  unread : s.net.rbuf.unread = []

/-- What `tnt_connect` does before it connects: the buffers are empty, the counters start again.  Of
an old connection nothing is left but the schema; a stream that was not connected stays as it is. -/
theorem beforeConnect_spec {c : Client} (hc : Usable c) :
    Blank (beforeConnect c).conn.s ∧
      (beforeConnect c).conn.s.net.sbuf.size = c.conn.s.net.sbuf.size ∧
      (beforeConnect c).conn.s.reqid = firstNumber c ∧
      (beforeConnect c).conn.schema = c.conn.schema ∧
      (beforeConnect c).greeting = c.greeting ∧ (beforeConnect c).uri = c.uri := by
  unfold beforeConnect firstNumber
  split_ifs with hconn
  · have hunread : (tntIobClear c.conn.s.net.rbuf).unread = [] := by
      simp [Iob.unread, tntIobClear]
    exact ⟨⟨⟨hc.inv.rbuf.sized, le_rfl, Nat.zero_le _⟩, ⟨hc.inv.sending.sized, Nat.zero_le _⟩, rfl,
      rfl, hunread⟩, rfl, rfl, rfl, rfl, rfl⟩
  · obtain ⟨hcnt, hoff, hunread⟩ := hc.empty (by simpa using hconn)
    exact ⟨⟨hc.inv.rbuf, hc.inv.sending, hcnt, hoff, hunread⟩, rfl, rfl, rfl, rfl, rfl⟩

/-- A client with a user and a password, the transport that `tnt_io_connect` has opened, and a
server that greets with a salt and goes on with `come`. -/
structure Opening (c : Client) (io : Transport UInt8) (user pass salt greeting come : Bytes) :
    Prop where
  usable : Usable c
  uri : c.uri = ⟨some user, some pass⟩
  short : user.length < 2 ^ 31
  noGuest : ¬ isGuest (some user)
  reliable : io.Reliable
  iovmax : 16 ≤ io.iovmax
  accepted : io.accepted = []
  length : greeting.length = greetingSize
  challenge : Challenges greeting salt
  long : scrambleSize ≤ salt.length
  incoming : io.incoming = greeting ++ come

section Connect

variable {c : Client} {io : Transport UInt8} {user pass salt greeting come : Bytes}

/-- **The greeting is read**, and what is left is to authenticate.  The greeting has a fixed length,
and is read whatever it says; what of it is used is the text of the salt. -/
theorem connect_greets [Msgpuck] (M : Memory) (ho : Opening c io user pass salt greeting come) :
    ∃ c₁ : Client,
      (∀ {rc c'}, @tntAuthenticate _ codeDigest M c₁ = some (rc, c') →
        @tntConnect _ codeDigest M (.ok, io) c = some (if rc = -1 then -1 else 0, c')) ∧
      Challenged c₁ user pass salt ∧ (Room c.conn.s.net 64 → Idle c₁.conn) ∧
      c₁.greeting = greeting ∧ c₁.conn.schema = c.conn.schema ∧ c₁.conn.s.reqid = firstNumber c ∧
      c₁.conn.s.net.sbuf.size = c.conn.s.net.sbuf.size ∧ c₁.conn.s.net.error = .ok ∧
      c₁.conn.s.net.toCome = come ∧ c₁.conn.s.net.log = [] := by
  obtain ⟨hblank, hsize, hreqid, hschema, hgreeting, huri⟩ := beforeConnect_spec ho.usable
  set c₀ := beforeConnect c with hc₀
  -- the stream as it reads the greeting
  set net₀ : StreamNet UInt8 := { c₀.conn.s.net with error := .ok, io := io } with hnet₀
  have hready : Ready net₀ := ⟨hblank.rbuf, hblank.sending, ho.reliable⟩
  have hcome : net₀.toCome = greeting ++ come := by
    rw [StreamNet.toCome]
    show c₀.conn.s.net.rbuf.unread ++ io.incoming = _
    rw [hblank.unread, ho.incoming, List.nil_append]
  obtain ⟨net, hrecv, hready', hcome'⟩ := hready.recv hcome (by rw [ho.length]; decide)
  have hafter := tntIoRecv_after hready.rbuf hrecv
  have hsbuf := (tntIoRecv_cases hready.rbuf hrecv).2.1
  have herror : net.error = .ok := tntIoRecv_error hrecv (by omega)
  rw [ho.length] at hrecv
  have hdrop : c₀.greeting.drop greeting.length = [] := by
    rw [hgreeting, ho.length, ← ho.usable.greeting, List.drop_length]
  have huri' : c₀.uri = ⟨some user, some pass⟩ := huri.trans ho.uri
  have hsize' : net.sbuf.size = c.conn.s.net.sbuf.size := by
    rw [hsbuf]
    exact hsize
  refine ⟨⟨⟨{ c₀.conn.s with net := net }, true, c₀.conn.schema⟩, greeting, c₀.uri⟩, ?_,
    ⟨huri', ho.short, ho.noGuest, ho.challenge, ho.long⟩, fun hroom => ⟨hready', ?_, ?_, rfl,
      hblank.wrcnt⟩, rfl, hschema, hreqid, hsize', herror, hcome', ?_⟩
  · intro rc c' hauth
    have hrecv' : tntIoRecv { c₀.conn.s.net with error := .ok, io := io } greetingSize =
      some ((greetingSize : Int), greeting, net) := hrecv
    have hread : ¬ ((greetingSize : Int) = -1 ∨ net.error ≠ .ok) := by simp [herror, greetingSize]
    have hboth : c₀.uri.login.isSome = true ∧ c₀.uri.password.isSome = true := by
      rw [huri']
      exact ⟨rfl, rfl⟩
    simp only [tntConnect, ← hc₀, Client.withError, connectedTo, Client.withStream, hrecv', hdrop,
      List.append_nil, if_neg hread, if_pos hboth, hauth, ne_eq, not_true_eq_false, if_false,
      Option.bind_eq_bind, Option.bind_some, pure]
  · show 16 ≤ net.io.iovmax
    rw [hafter.iovmax]
    exact ho.iovmax
  · show Room net 64
    rw [Room, hsize']
    exact hroom
  · show net.log = []
    rw [StreamNet.log, hafter.accepted, hsbuf]
    show io.accepted ++ c₀.conn.s.net.sbuf.front = []
    rw [ho.accepted, Iob.front, hblank.off, List.take_zero, List.append_nil]

/-- A login that succeeds, and the stream behind it.  It is the theorem below with the stream as it
is afterwards, which is where a session can start. -/
theorem connect_accepted [Msgpuck] {M : Memory} (hM : M.Lasts)
    (ho : Opening c io user pass salt greeting come) (hpass : pass.length < 2 ^ 31)
    (hmin : Room c.conn.s.net 64)
    (hroom : Room c.conn.s.net (authWire (firstNumber c) user pass greeting).length)
    {w ws wi : WireReply} (hcode : w.code = 0) (hnone : ¬ w.HasError) {spaces : List SpaceRow}
    {indexes : List IndexRow} (hs : Answers ws 127 (spaces.map SpaceRow.value))
    (hi : Answers wi 128 (indexes.map IndexRow.value))
    {replies rest : Bytes} (hcome : come = w.bytes ++ replies)
    (hreplies : Coming ws wi rest replies) :
    ∃ c' out w₁ w₂, @tntConnect _ codeDigest M (.ok, io) c = some (0, c') ∧
      Quiet c'.conn.s ∧ c'.conn.connected = true ∧ c'.conn.s.wrcnt = 0 ∧ c'.conn.s.net.toCome = rest ∧
      c'.conn.schema = loaded M.name c.conn.schema spaces indexes ∧
      c'.conn.s.net.io.accepted = authWire (firstNumber c) user pass greeting ++ (w₁ ++ w₂) ∧
      Carries (authWire (firstNumber c) user pass greeting) .auth (firstNumber c).toNat
        (authPairs user out) ∧
      (∀ m, scrambleOf m (greeting.drop versionSize) pass = some out) ∧
      @ServerAccepts codeDigest (Sha1.sha1 (Sha1.sha1 pass)) salt out ∧
      Carries w₁ .select 127 (selectPairs 281) ∧ Carries w₂ .select 128 (selectPairs 289) := by
  obtain ⟨c₁, hconnect, hch, hidle, hgreeting, hschema, hreqid, hsize, -, hcome₁, hlog⟩ :=
    connect_greets M ho
  -- reading the greeting changes neither the number of the request nor the room for it
  have hroom₁ : Room c₁.conn.s.net (authWire c₁.conn.s.reqid user pass c₁.greeting).length := by
    rw [Room, hsize, hreqid, hgreeting]
    exact hroom
  obtain ⟨c', w₁, w₂, hauth, hquiet, hconn, hloaded, hzero, hrest, hacc, hcarries, hcarries₁,
      hcarries₂⟩ :=
    authenticate_accepted hM hch (hidle hmin) hroom₁ hcode hnone hs hi (hcome₁.trans hcome)
      hreplies
  -- a new connection has written nothing yet
  rw [hlog, List.nil_append, hreqid, hgreeting] at hacc
  rw [hschema] at hloaded
  rw [hreqid, hgreeting] at hcarries
  exact ⟨c', scrambleFor salt pass, w₁, w₂, hconnect hauth, hquiet, hconn, hzero, hrest, hloaded, hacc,
    hcarries, fun m => scrambleOf_eq m ho.challenge ho.long hpass, scrambleFor_accepted salt pass,
    hcarries₁, hcarries₂⟩

/-- **A login.**  Whatever a client was connected to before, and however the transport cuts up what
it carries: if the request of `tnt_auth` fits into the send buffer, the server takes it, and answers
the selects of the reload in one order or the other, then `tnt_connect` returns 0 with nothing
outstanding and the schema loaded.  All that went over the transport are the three requests; the
first carries the scramble that `tnt_scramble_prepare` computes, and a server that keeps the double
hash of the password accepts it.  The three requests are followed from the encoders to the bytes on
the transport, and the three replies back.  Behind them stand the results of other modules:
buffering in both directions, the scramble, the loads, the accounting of replies.  The connection
may have been used for anything before; a connect begins by closing it. -/
theorem connect_logs_in [Msgpuck] {M : Memory} (hM : M.Lasts)
    (ho : Opening c io user pass salt greeting come) (hpass : pass.length < 2 ^ 31)
    (hmin : Room c.conn.s.net 64)
    (hroom : Room c.conn.s.net (authWire (firstNumber c) user pass greeting).length)
    {w ws wi : WireReply} (hcode : w.code = 0) (hnone : ¬ w.HasError) {spaces : List SpaceRow}
    {indexes : List IndexRow} (hs : Answers ws 127 (spaces.map SpaceRow.value))
    (hi : Answers wi 128 (indexes.map IndexRow.value))
    {replies rest : Bytes} (hcome : come = w.bytes ++ replies)
    (hreplies : Coming ws wi rest replies) :
    ∃ c' out w₁ w₂, @tntConnect _ codeDigest M (.ok, io) c = some (0, c') ∧
      c'.conn.connected = true ∧ c'.conn.s.wrcnt = 0 ∧ c'.conn.s.net.toCome = rest ∧
      c'.conn.schema = loaded M.name c.conn.schema spaces indexes ∧
      c'.conn.s.net.io.accepted = authWire (firstNumber c) user pass greeting ++ (w₁ ++ w₂) ∧
      Carries (authWire (firstNumber c) user pass greeting) .auth (firstNumber c).toNat
        (authPairs user out) ∧
      (∀ m, scrambleOf m (greeting.drop versionSize) pass = some out) ∧
      @ServerAccepts codeDigest (Sha1.sha1 (Sha1.sha1 pass)) salt out ∧
      Carries w₁ .select 127 (selectPairs 281) ∧ Carries w₂ .select 128 (selectPairs 289) := by
  obtain ⟨c', out, w₁, w₂, hconnect, -, hrest⟩ :=
    connect_accepted hM ho hpass hmin hroom hcode hnone hs hi hcome hreplies
  exact ⟨c', out, w₁, w₂, hconnect, hrest⟩

/-- The user `u` with the password `p`, a client that buffers nothing, and a transport that moves a
byte at a time. -/
def demoClient (sbuf user : Bytes) : Client :=
  ⟨⟨⟨0, 0, StreamNet.fresh sbuf [] [] false 16 fun _ => .take 0⟩, false, tntSchemaNew⟩,
    List.replicate greetingSize 0, ⟨some user, some [0x70]⟩⟩

/-- A line of spaces, the text of a salt of sevens, and the rest of its line. -/
def demoGreeting : Bytes :=
  List.replicate versionSize 32 ++ (Base64.base64Encode (List.replicate 32 7) 45).1 ++
    List.replicate 20 32

def demoOpened (come : Bytes) : Transport UInt8 :=
  ⟨demoGreeting ++ come, [], fun _ => .take 0, 0, 0, 16⟩

/-- A client before a login, and what it is going to receive. -/
theorem demo_opening {sbuf user : Bytes} (huser : user.length < 2 ^ 31)
    (hguest : ¬ isGuest (some user)) (come : Bytes) :
    Opening (demoClient sbuf user) (demoOpened come) user [0x70] (List.replicate 32 7) demoGreeting
      come where
  usable := by
    let _ := Msgpuck.reference
    exact ⟨(Reached.new _ _ _ _ _).inv, List.length_replicate, fun _ => ⟨rfl, rfl, rfl⟩⟩
  uri := rfl
  short := huser
  noGuest := hguest
  reliable := by
    rintro n ⟨e, he⟩
    exact absurd he (by simp [demoOpened])
  iovmax := Nat.le_refl 16
  accepted := rfl
  length := by
    have htext : (Base64.base64Encode (List.replicate 32 7) 45).1.length = 44 := by decide +kernel
    rw [demoGreeting, List.length_append, List.length_append, htext, List.length_replicate,
      List.length_replicate]
    rfl
  challenge := challenges_of_encode List.length_replicate List.length_replicate (Nat.le_refl 45)
  long := by decide
  incoming := rfl

/-- `{TNT_CODE: 0, TNT_SYNC: 0}`, and no body. -/
def demoAccepts : WireReply where
  hdr := demoHdr 0 0 okCode_lt okCode_lt
  body := none
  wf := by
    refine ⟨?_, fun m hm => by cases hm⟩
    intro w hw
    rcases List.mem_cons.mp hw with rfl | hw
    · exact ⟨Or.inl rfl, 0, rfl⟩
    · rw [List.mem_singleton.mp hw]
      exact ⟨Or.inr (Or.inl rfl), 0, rfl⟩
  length_lt := by decide

/-- A login with a salt of sevens and the password `p`; the indexes come first. -/
theorem connect_logs_in_sevens :
    ∃ c' out, @tntConnect Msgpuck.reference codeDigest demoMemory
        (.ok, demoOpened (demoAccepts.bytes ++ (testIndexes.bytes ++ (testSpaces.bytes ++ []))))
        (demoClient [] [0x75]) = some (0, c') ∧
      c'.conn.s.wrcnt = 0 ∧ c'.conn.schema = loaded customRealloc tntSchemaNew [testSpace] [testIndex] ∧
      @ServerAccepts codeDigest (Sha1.sha1 (Sha1.sha1 [0x70])) (List.replicate 32 7) out := by
  have hnone : ¬ demoAccepts.HasError := by
    rintro ⟨m, hm, -⟩
    cases hm
  obtain ⟨c', out, w₁, w₂, hconnect, -, hzero, -, hschema, -, -, -, haccepts, -⟩ :=
    @connect_logs_in _ _ _ _ _ _ _ Msgpuck.reference _ demoMemory_lasts
      (@demo_opening [] [0x75] (by decide) (by decide) _) (by decide) (.inl rfl) (.inl rfl)
      demoAccepts testSpaces testIndexes rfl hnone _ _ testSpaces_answers testIndexes_answers
      _ [] rfl (.inr rfl)
  exact ⟨c', out, hconnect, hzero, hschema, haccepts⟩

/-- **A login that is refused.**  If the answer is an error, `tnt_connect` returns -1; the error of
the stream is `TNT_ELOGIN` exactly if the server names the password, and `TNT_EOK` else.  The
request is all that was sent, and the stream stays connected, with nothing outstanding.  No schema
is asked for, so the reply to the authentication is all that was to come, and it has been read.
Whether it is about the password is decided by the error code alone. -/
theorem connect_refused [Msgpuck] {M : Memory} (hM : ∀ n, M.reply n = true)
    (ho : Opening c io user pass salt greeting come) (hmin : Room c.conn.s.net 64)
    (hroom : Room c.conn.s.net (authWire (firstNumber c) user pass greeting).length)
    {w : WireReply} (hw : w.IsFinal) (herr : w.HasError) {rest : Bytes}
    (hcome : come = w.bytes ++ rest) :
    ∃ c', @tntConnect _ codeDigest M (.ok, io) c = some (-1, c') ∧
      c'.conn.s.net.error = (if w.code % 2 ^ 15 = erPasswordMismatch then .login else .ok) ∧
      c'.conn.connected = true ∧ c'.conn.schema = c.conn.schema ∧ c'.conn.s.wrcnt = 0 ∧
      c'.conn.s.net.toCome = rest ∧
      c'.conn.s.net.io.accepted = authWire (firstNumber c) user pass greeting ∧
      Carries (authWire (firstNumber c) user pass greeting) .auth (firstNumber c).toNat
        (authPairs user (scrambleFor salt pass)) := by
  obtain ⟨c₁, hconnect, hch, hidle, hgreeting, hschema, hreqid, hsize, herror, hcome₁, hlog⟩ :=
    connect_greets M ho
  have hroom₁ : Room c₁.conn.s.net (authWire c₁.conn.s.reqid user pass c₁.greeting).length := by
    rw [Room, hsize, hreqid, hgreeting]
    exact hroom
  obtain ⟨c', hauth, hconn, hkept, hzero, hrest, herror', hacc, hcarries⟩ :=
    authenticate_refused hM hch (hidle hmin) hroom₁ hw herr (hcome₁.trans hcome)
  rw [hlog, List.nil_append, hreqid, hgreeting] at hacc
  rw [hreqid, hgreeting] at hcarries
  rw [herror] at herror'
  exact ⟨c', hconnect hauth, herror', hconn, hkept.trans hschema, hzero, hrest, hacc, hcarries⟩

/-- `{TNT_CODE: 0x8000 | TNT_ER_PASSWORD_MISMATCH, TNT_SYNC: 0}` and `{TNT_ERROR: "no"}`. -/
def demoRefuses : WireReply where
  hdr := demoHdr 0x802f 0 (by decide) okCode_lt
  body := some errorBody
  wf := by
    refine ⟨?_, errorReply_wellFormed.body⟩
    intro w hw
    rcases List.mem_cons.mp hw with rfl | hw
    · exact ⟨Or.inl rfl, 0x802f, rfl⟩
    · rw [List.mem_singleton.mp hw]
      exact ⟨Or.inr (Or.inl rfl), 0, rfl⟩
  length_lt := by decide

/-- The same with a server that names the password. -/
theorem connect_refused_mismatch :
    ∃ c', @tntConnect Msgpuck.reference codeDigest demoMemory
        (.ok, demoOpened (demoRefuses.bytes ++ [])) (demoClient [] [0x75]) = some (-1, c') ∧
      c'.conn.s.net.error = .login ∧ c'.conn.connected = true := by
  have herr : demoRefuses.HasError := ⟨errorBody, rfl, _, List.mem_singleton.mpr rfl, rfl⟩
  obtain ⟨c', hconnect, herror, hconn, -⟩ :=
    @connect_refused _ _ _ _ _ _ _ Msgpuck.reference _ demoMemory_lasts.reply
      (@demo_opening [] [0x75] (by decide) (by decide) _) (.inl rfl) (.inl rfl) demoRefuses
      (.inr ⟨47, rfl, herr⟩) herr [] rfl
  exact ⟨c', hconnect, herror, hconn⟩

end Connect

end TarantoolC.Login
