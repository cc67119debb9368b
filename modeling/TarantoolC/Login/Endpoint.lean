/-
# TarantoolC.Login.Endpoint — `tnt_connect` seen from its two sides.

`tnt_connect` is modelled twice.  `TarantoolC.Io.Descriptors` has the addresses and the descriptors,
and takes what is said over the connection as a parameter; `TarantoolC.Login` has the conversation,
and takes what `tnt_io_connect` comes to as one.  Each follows the code where the other has the
parameter.

So the two are about one function, and `tntConnect_shows` says so: whatever `Login.tntConnect` does
over the connection that the addresses lead to, `Io.tntConnect` does it with some greeting and some
authentication, and the two have the same result, the same buffers and the same counters at the end.
What is proved of the descriptors for every such parameter (`run_honest_iff`) holds of a login.

The one thing the conversation does not know is the error number `tnt_io_connect` leaves, which it
never reads: the client is given it beforehand.

`Shows` is the relation of the two results: the session of the endpoint is that of the client, and
the endpoint is connected when the client is.  `beforeConnect` is shared by both models, the part of
`tnt_connect` that closes an old connection and empties the buffers, and it commutes with the view
(`beforeConnect_shows`).
-/
import TarantoolC.Login
import TarantoolC.Io.Descriptors

namespace TarantoolC.Login

open Msgpuck Io Request Schema

/-! ## §1 — what connecting does to the session.

`tnt_io_connect` and its parts change the descriptor, the error and the flag, and never the buffers
or counters. -/

/-- Nothing but the error number of the session has changed, and what was not connected is not. -/
structure OnlyErrno (s s' : Endpoint) : Prop where
  inited : s'.inited = s.inited
  session : s'.session = { s.session with errno := s'.session.errno }
  connected : s.connected = false → s'.connected = false

/-- Nothing changed, ... -/
theorem OnlyErrno.refl (s : Endpoint) : OnlyErrno s s := ⟨rfl, rfl, id⟩

/-- ... one change after the other, ... -/
theorem OnlyErrno.trans {s s' s'' : Endpoint} (h : OnlyErrno s s') (h' : OnlyErrno s' s'') :
    OnlyErrno s s'' := by
  refine ⟨h'.inited.trans h.inited, ?_, fun hs => h'.connected (h.connected hs)⟩
  rw [h'.session, h.session]

/-- ... another error number, ... -/
theorem OnlyErrno.setErrno (s : Endpoint) (e : Int) : OnlyErrno s (s.setErrno e) := ⟨rfl, rfl, id⟩

/-- ... another descriptor, which the session does not have, ... -/
theorem OnlyErrno.setFd (s : Endpoint) (fd : Nat) : OnlyErrno s (s.setFd fd) := ⟨rfl, rfl, id⟩

/-- ... and closing, which keeps the session ... -/
theorem tntIoClose_session (s : Endpoint) : (tntIoClose s).session = s.session := by
  unfold tntIoClose
  split_ifs <;> rfl

/-- ... and its buffers. -/
theorem tntIoClose_inited (s : Endpoint) : (tntIoClose s).inited = s.inited := by
  unfold tntIoClose
  split_ifs <;> rfl

/-- A stream that is closed. -/
theorem OnlyErrno.close (s : Endpoint) : OnlyErrno s (tntIoClose s) :=
  ⟨tntIoClose_inited s, by rw [tntIoClose_session], fun _ => tntIoClose_connected s⟩

/-- One address. -/
theorem tntIoTry_errno (unix : Bool) (tmout : Timeval) (a : Address) (s : Endpoint) :
    OnlyErrno s (tntIoTry unix tmout a s).2 := by
  unfold tntIoTry
  cases a.socket with
  | error e => exact ⟨rfl, rfl, id⟩
  | ok fd =>
    have hfd := OnlyErrno.setFd s fd
    cases hoptions : a.options unix with
    | error e =>
      simp only [tntIoSetopts, hoptions]
      exact (hfd.trans (.setErrno _ e)).trans (.close _)
    | ok done =>
      simp only [tntIoSetopts, hoptions, ne_eq, not_true_eq_false, if_false]
      have herrno := hfd.trans
        (.setErrno _ (a.connect unix tmout (s.setFd fd).session.errno).2)
      split_ifs
      · exact herrno
      · exact herrno.trans (.close _)

/-- All of them. -/
theorem connectLoop_errno (tmout : Timeval) (l : List Address) (result : TntError) (s : Endpoint) :
    OnlyErrno s (connectLoop tmout l result s).2 := by
  induction l generalizing result s with
  | nil => exact .refl s
  | cons a l ih =>
    have hone := tntIoTry_errno false tmout a s
    rw [connectLoop]
    cases htry : tntIoTry false tmout a s with
    | mk result' s' =>
      rw [htry] at hone
      cases result' with
      | ok => exact hone
      | _ => exact hone.trans (ih _ s')

/-- Trying the addresses of a target. -/
theorem tntIoReach_errno (tmout : Timeval) (target : Target) (s : Endpoint) :
    OnlyErrno s (tntIoReach tmout target s).2 := by
  cases target with
  | tcp resolved =>
    simp only [tntIoReach, tntIoConnectTcp]
    split_ifs
    · exact .refl s
    · exact connectLoop_errno tmout resolved .ok s
  | unix a => exact tntIoTry_errno true tmout a s
  | other => exact .refl s

/-- **`tnt_io_connect`** changes the error number, and says whether there is a connection. -/
theorem tntIoConnect_errno {tmout : Timeval} {target : Target} {s s' : Endpoint} {result : TntError}
    (h : tntIoConnect tmout target s = (result, s')) (hs : s.connected = false) :
    s'.inited = s.inited ∧ s'.session = { s.session with errno := s'.session.errno } ∧
      s'.connected = decide (result = .ok) := by
  have hreach := tntIoReach_errno tmout target s
  unfold tntIoConnect at h
  cases hr : tntIoReach tmout target s with
  | mk result' s₁ =>
    rw [hr] at h hreach
    simp only at h
    split_ifs at h with hne
    · obtain ⟨rfl, rfl⟩ := Prod.mk.inj h
      refine ⟨hreach.inited, hreach.session, ?_⟩
      rw [hreach.connected hs, decide_eq_false hne]
    · obtain ⟨rfl, rfl⟩ := Prod.mk.inj h
      exact ⟨hreach.inited, hreach.session, rfl⟩

/-! ## §2 — the two models.

Step by step through `tnt_connect`: the old connection, the new one, the greeting, the login. -/

/-- The session of a client. -/
def Client.session (c : Client) : Io.Session where
  sbuf := c.conn.s.net.sbuf
  rbuf := c.conn.s.net.rbuf
  error := c.conn.s.net.error
  errno := c.conn.s.net.errno
  wrcnt := c.conn.s.wrcnt
  reqid := c.conn.s.reqid

/-- `s->errno_ = e`. -/
def Client.withErrno (c : Client) (e : Int) : Client :=
  { c with conn := { c.conn with s := { c.conn.s with net := { c.conn.s.net with errno := e } } } }

/-- The client and the endpoint are one stream, which `tnt_init` has prepared. -/
structure Shows (c : Client) (s : Endpoint) : Prop where
  inited : s.inited = true
  connected : s.connected = c.conn.connected
  session : s.session = c.session

/-- Up to `tnt_io_connect` the two do the same. -/
theorem beforeConnect_shows {c : Client} {s : Endpoint} (h : Shows c s) (p : Peer) :
    (Io.beforeConnect p s).inited = true ∧ (Io.beforeConnect p s).connected = false ∧
      (Io.beforeConnect p s).session = (beforeConnect c).session ∧
      (beforeConnect c).conn.connected = false := by
  obtain ⟨hinited, hconnected, hsession⟩ := h
  have hio : Io.beforeConnect p s = if s.connected then Io.tntClose s else s := by
    rw [Io.beforeConnect, if_pos hinited]
  rw [hio, hconnected, beforeConnect]
  cases hconn : c.conn.connected with
  | false => exact ⟨hinited, hconnected.trans hconn, hsession, hconn⟩
  | true =>
    refine ⟨(tntIoClose_inited _).trans hinited, tntIoClose_connected _, ?_, rfl⟩
    show { (tntIoClose _).session with wrcnt := 0, reqid := 0 } = _
    rw [tntIoClose_session, hsession]
    rfl

/-- The part before connecting does not read the error number. -/
theorem beforeConnect_withErrno (c : Client) (e : Int) :
    beforeConnect (c.withErrno e) = (beforeConnect c).withErrno e := by
  unfold beforeConnect
  show (if c.conn.connected then _ else _) = _
  split_ifs <;> rfl

section Connect

variable [Msgpuck] [Digest]

omit [Digest] in
/-- Neither a reload nor an authentication ends the connection. -/
theorem tntReloadSchema_connected {M : Memory} {c c' : Schema.Conn} {rc : Int}
    (h : tntReloadSchema M c = some (rc, c')) : c'.connected = c.connected := by
  unfold tntReloadSchema at h
  split_ifs at h
  · obtain ⟨-, rfl⟩ := Prod.mk.inj (Option.some.inj h)
    rfl
  · simp only [bind, Option.bind_eq_some_iff] at h
    obtain ⟨s, -, ⟨rc', l⟩, -, h⟩ := h
    obtain ⟨-, rfl⟩ := Prod.mk.inj (Option.some.inj h)
    rfl

/-- Authentication leaves a stream as connected as it was. -/
theorem tntAuthenticate_connected {M : Memory} {c c' : Client} {rc : Int}
    (h : tntAuthenticate M c = some (rc, c')) : c'.conn.connected = c.conn.connected := by
  unfold tntAuthenticate at h
  split_ifs at h with hidle
  · obtain ⟨-, rfl⟩ := Prod.mk.inj (Option.some.inj h)
    rfl
  · simp only [bind, Option.bind_eq_some_iff] at h
    obtain ⟨sent, -, ⟨n, s₁⟩, -, ⟨m, s₂⟩, -, ⟨rc', rep, s₃⟩, -, h⟩ := h
    simp only at h
    split_ifs at h
    · obtain ⟨-, rfl⟩ := Prod.mk.inj (Option.some.inj h)
      rfl
    · obtain ⟨-, rfl⟩ := Prod.mk.inj (Option.some.inj h)
      rfl
    · obtain ⟨-, rfl⟩ := Prod.mk.inj (Option.some.inj h)
      rfl
    · simp only [Option.bind_eq_some_iff] at h
      obtain ⟨⟨rc'', conn⟩, hreload, h⟩ := h
      obtain ⟨-, rfl⟩ := Prod.mk.inj (Option.some.inj h)
      have hsame : conn.connected = (c.withStream s₃).conn.connected :=
        tntReloadSchema_connected hreload
      exact hsame

/-- How a login goes: there is no connection; or the greeting has been read, with the result `rc₁`,
and the client is `c₂`.  Then it fails, or authenticates, or has nobody to authenticate. -/
theorem tntConnect_cases {M : Memory} {result : TntError} {io : Transport UInt8} {c c' : Client}
    {rc : Int} (h : tntConnect M (result, io) c = some (rc, c')) :
    (result ≠ .ok ∧ rc = -1 ∧ c' = (beforeConnect c).withError result) ∨
    (result = .ok ∧ ∃ rc₁ c₂, c₂.conn.connected = true ∧
      ((rc₁ = -1 ∨ c₂.session.error ≠ .ok) ∧ rc = -1 ∧ c' = c₂ ∨
        ¬ (rc₁ = -1 ∨ c₂.session.error ≠ .ok) ∧
          ((∃ rc₂, tntAuthenticate M c₂ = some (rc₂, c') ∧ rc = if rc₂ = -1 then -1 else 0) ∨
            rc = 0 ∧ c' = c₂))) := by
  by_cases hok : result = .ok
  · -- the connection is there: the greeting is read, and then the course depends on the user
    right
    refine ⟨hok, ?_⟩
    simp only [tntConnect, hok, ne_eq, not_true_eq_false, if_false, bind,
      Option.bind_eq_some_iff] at h
    obtain ⟨⟨rc₁, got, net⟩, -, h⟩ := h
    refine ⟨rc₁, { Client.withStream
        { (beforeConnect c).withError .ok with
          conn := connectedTo ((beforeConnect c).withError .ok).conn io }
        { (beforeConnect c).conn.s with net := net } with
      greeting := got ++ (beforeConnect c).greeting.drop got.length }, rfl, ?_⟩
    have hfails : ∀ c₂ : Client, c₂.conn.s.net = net →
        ((rc₁ = -1 ∨ ¬ net.error = .ok) ↔ (rc₁ = -1 ∨ c₂.session.error ≠ .ok)) := by
      rintro c₂ rfl
      rfl
    dsimp only at h
    -- no greeting; a user with a password; nobody to authenticate
    split_ifs at h with hfail hlogin
    · obtain ⟨rfl, rfl⟩ := Prod.mk.inj (Option.some.inj h)
      exact .inl ⟨hfail, rfl, rfl⟩
    · simp only [Option.bind_eq_some_iff] at h
      obtain ⟨⟨rc₂, c₃⟩, hauth, h⟩ := h
      obtain ⟨rfl, rfl⟩ := Prod.mk.inj (Option.some.inj h)
      exact .inr ⟨hfail, .inl ⟨rc₂, hauth, rfl⟩⟩
    · obtain ⟨rfl, rfl⟩ := Prod.mk.inj (Option.some.inj h)
      exact .inr ⟨hfail, .inr ⟨rfl, rfl⟩⟩
  · simp only [tntConnect, if_pos hok] at h
    obtain ⟨rfl, rfl⟩ := Prod.mk.inj (Option.some.inj h)
    exact .inl ⟨hok, rfl, rfl⟩

omit [Msgpuck] [Digest] in
/-- The other model, over a connection that the addresses have led to, with a greeting that leaves
the session as given. -/
theorem tntConnect_greets {p : Peer} {s s₁ : Endpoint}
    (hreached : tntIoConnect p.tmoutConnect p.target (Io.beforeConnect p s) = (.ok, s₁)) (rc : Int)
    (session : Io.Session) (authenticate : Option (Io.Session → Int × Io.Session)) :
    Io.tntConnect { p with greeting := fun _ => (rc, session), authenticate := authenticate } s =
      if rc = -1 ∨ session.error ≠ .ok then (-1, { s₁ with session := session })
      else match authenticate with
        | none => (0, { s₁ with session := session })
        | some f => (if (f session).1 = -1 then -1 else 0, { s₁ with session := (f session).2 }) := by
  have hsame : tntIoConnect p.tmoutConnect p.target (Io.beforeConnect
      { p with greeting := fun _ => (rc, session), authenticate := authenticate } s) = (.ok, s₁) :=
    hreached
  cases authenticate with
  | none => simp only [Io.tntConnect, hsame, ne_eq, not_true_eq_false, if_false]
  | some f => simp only [Io.tntConnect, hsame, ne_eq, not_true_eq_false, if_false]

/-- **One function**: a login is a use of `tnt_connect` with some greeting and authentication. -/
theorem tntConnect_shows {M : Memory} {c c' : Client} {s : Endpoint} (h : Shows c s) (p : Peer)
    {io : Transport UInt8} {rc : Int}
    (hconnect : let reached := tntIoConnect p.tmoutConnect p.target (Io.beforeConnect p s)
      tntConnect M (reached.1, io) (c.withErrno reached.2.session.errno) = some (rc, c')) :
    ∃ greeting authenticate,
      let r := Io.tntConnect { p with greeting := greeting, authenticate := authenticate } s
      r.1 = rc ∧ Shows c' r.2 := by
  obtain ⟨hinited, hconnected, hsession, hbefore⟩ := beforeConnect_shows h p
  obtain ⟨result, s₁, hreached⟩ : ∃ result s₁,
    tntIoConnect p.tmoutConnect p.target (Io.beforeConnect p s) = (result, s₁) := ⟨_, _, rfl⟩
  obtain ⟨hinited₁, hsession₁, hconnected₁⟩ := tntIoConnect_errno hreached hconnected
  rw [hinited] at hinited₁
  rw [hsession] at hsession₁
  simp only [hreached] at hconnect
  -- what is said over the connection leaves the descriptors alone
  have hshows : ∀ c : Client, c.conn.connected = decide (result = .ok) →
      Shows c { s₁ with session := c.session } :=
    fun c hconn => ⟨hinited₁, hconnected₁.trans hconn.symm, rfl⟩
  rcases tntConnect_cases hconnect with ⟨hne, rfl, rfl⟩ | ⟨rfl, rc₁, c₂, hconn, hend⟩
  · refine ⟨p.greeting, p.authenticate, ?_⟩
    simp only [Io.tntConnect, hreached, if_pos hne]
    have hstart : { s₁.session with error := result } =
        ((beforeConnect (c.withErrno s₁.session.errno)).withError result).session := by
      rw [beforeConnect_withErrno, hsession₁]
      rfl
    rw [hstart]
    refine ⟨trivial, hshows _ ?_⟩
    rw [beforeConnect_withErrno, decide_eq_false hne]
    exact hbefore
  · rcases hend with ⟨hfail, rfl, rfl⟩ | ⟨hfine, ⟨rc₂, hauth, rfl⟩ | ⟨rfl, rfl⟩⟩
    · refine ⟨fun _ => (rc₁, c'.session), none, ?_⟩
      rw [tntConnect_greets hreached, if_pos hfail]
      exact ⟨rfl, hshows _ hconn⟩
    · refine ⟨fun _ => (rc₁, c₂.session), some fun _ => (rc₂, c'.session), ?_⟩
      rw [tntConnect_greets hreached, if_neg hfine]
      exact ⟨rfl, hshows _ ((tntAuthenticate_connected hauth).trans hconn)⟩
    · refine ⟨fun _ => (rc₁, c'.session), none, ?_⟩
      rw [tntConnect_greets hreached, if_neg hfine]
      exact ⟨rfl, hshows _ hconn⟩

end Connect

end TarantoolC.Login
