/-
# TarantoolC.Io.Descriptors — connecting and closing, with the descriptors a stream has open.

`tnt_io_connect_tcp` tries the addresses of a name one after the other.  Each gets a descriptor of
its own, and what fails is closed by `tnt_io_close`, which takes only a POSITIVE number for a
descriptor: that is how it knows the -1 of a closed stream.  A process that has closed its standard
input is given 0.

The kernel's answers are the input: for each address what `socket` returns, which options can be
set, and the kernel of `tnt_io_connect_do` behind the descriptor.  The two searches for a buffer
size in `tnt_io_setopts` never fail and are left out.  What is said over a connection (the greeting,
the login) changes the buffers and counters of the stream, its `Session`, and nothing else.

`run_honest_iff`: over every sequence of calls, nothing leaks and nothing is misreported exactly if
`tnt_io_close` never meets the descriptor 0.

## What is promised.

`Honest s c` is the promise about one call, and quotes no code: after a `tnt_close` the stream is
CLOSED, with a negative descriptor, not connected, and none of its descriptors open; a `tnt_connect`
finds the first address that can be connected, and then has exactly that descriptor open; if there
is none it says so, and the stream is closed.  The addresses an attempt leaves behind are counted by
what they leave open (`Address.leaves`): the descriptor 0, and no other.

A stream that is connected stays so when the greeting or the login fails; the code does not close
it, and the promise does not ask for it.

## Runs.

`Tidy` is the invariant: the stream has its descriptor open and no other, or none at all.
`step_honest` is one call on a tidy stream, `throughout_honest_iff` the induction over the calls.
The induction needs the equivalence and not one direction, because behind a call that did not keep
the promise nothing is claimed.
-/
import TarantoolC.Io.Connect
import TarantoolC.MsgPack.Format

namespace TarantoolC.Io

open MsgPack (Bytes)

/-! ## §1 — the kernel's answers.

For each address of the name a script of what will happen, which only the attempt for that address
reads. -/

/-- The options that `tnt_io_setopts` insists on. -/
inductive SockOpt where
  | nodelay | sndtimeo | rcvtimeo
  deriving Repr, DecidableEq

/-- An address, and what the system calls for it are going to answer.  Waiting for the connection is
not interrupted for ever. -/
structure Address where
  socket : Except Int Nat
  setsockopt : SockOpt → Except Int Unit
  kernel : Kernel
  interruptions : Nat
  settles : ¬ kernel.Interrupted (kernel.clock + 4 + 2 * interruptions)

/-- What the URI of the stream leads to: the addresses of a host (none if `getaddrinfo` fails), a
socket in the file system, nothing. -/
inductive Target where
  | tcp (resolved : List Address)
  | unix (a : Address)
  | other

/-! ## §2 — the code. -/

/-- What goes on over a connection. -/
structure Session where
  sbuf : Iob UInt8
  rbuf : Iob UInt8
  error : TntError
  errno : Int
  wrcnt : Nat
  reqid : UInt64

/-- A network stream, and the descriptors it was given and has not closed, the newest first. -/
structure Endpoint where
  fd : Int
  connected : Bool
  inited : Bool
  session : Session
  opened : List Nat

/-- `s->errno_ = errno;`. -/
def Endpoint.setErrno (s : Endpoint) (e : Int) : Endpoint :=
  { s with session := { s.session with errno := e } }

/-- `s->fd = socket(…)`, when there is a descriptor. -/
def Endpoint.setFd (s : Endpoint) (fd : Nat) : Endpoint :=
  { s with fd := fd, opened := fd :: s.opened }

/-- `tnt_io_close`. -/
def tntIoClose (s : Endpoint) : Endpoint :=
  if 0 < s.fd then
    { s with fd := -1, connected := false, opened := s.opened.erase s.fd.toNat }
  else { s with connected := false }

/-- The calls of `tnt_io_setopts`, up to the first that fails. -/
def Address.options (unix : Bool) (a : Address) : Except Int Unit := do
  unless unix do a.setsockopt .nodelay
  a.setsockopt .sndtimeo
  a.setsockopt .rcvtimeo

/-- `tnt_io_setopts`. -/
def tntIoSetopts (unix : Bool) (a : Address) (s : Endpoint) : TntError × Endpoint :=
  match a.options unix with
  | .error e => (.system, s.setErrno e)
  | .ok () => (.ok, s)

/-- `tnt_io_connect_do` on the address, which returns. -/
def Address.connectDo (tmout : Timeval) (a : Address) (errno : Int) : TntError × Connecting :=
  (tntIoConnectDo (a.interruptions + 1) ⟨tmout, errno, a.kernel⟩).get
    (Option.isSome_iff_exists.mpr (tntIoConnectDo_returns a.interruptions a.settles))

/-- The connection itself, and the error number it leaves: a plain `connect` in the file system. -/
def Address.connect (unix : Bool) (tmout : Timeval) (a : Address) (errno : Int) : TntError × Int :=
  if unix then
    match a.kernel.callConnect with
    | (some (), _) => (.ok, errno)
    | (none, k) => (.system, k.errno)
  else
    let (result, c) := a.connectDo tmout errno
    (result, c.errno)

/-- `tnt_io_connect_unix`, and the body of the loop of `tnt_io_connect_tcp`. -/
def tntIoTry (unix : Bool) (tmout : Timeval) (a : Address) (s : Endpoint) : TntError × Endpoint :=
  match a.socket with
  | .error e => (.system, { s.setErrno e with fd := -1 })
  | .ok fd =>
    let (result, s) := tntIoSetopts unix a (s.setFd fd)
    if result ≠ .ok then (result, tntIoClose s)
    else
      let (result, errno) := a.connect unix tmout s.session.errno
      let s := s.setErrno errno
      if result ≠ .ok then (result, tntIoClose s)
      else (.ok, s)

/-- The loop of `tnt_io_connect_tcp`. -/
def connectLoop (tmout : Timeval) : List Address → TntError → Endpoint → TntError × Endpoint
  | [], result, s => (result, s)
  | a :: l, _, s =>
    match tntIoTry false tmout a s with
    | (.ok, s) => (.ok, s)
    | (result, s) => connectLoop tmout l result s

/-- `tnt_io_connect_tcp`. -/
def tntIoConnectTcp (tmout : Timeval) (resolved : List Address) (s : Endpoint) :
    TntError × Endpoint :=
  if resolved = [] then (.resolve, s) else connectLoop tmout resolved .ok s

/-- `tnt_io_connect_unix`. -/
def tntIoConnectUnix (tmout : Timeval) (a : Address) (s : Endpoint) : TntError × Endpoint :=
  tntIoTry true tmout a s

/-- `tnt_io_connect`, up to `connected`. -/
def tntIoReach (tmout : Timeval) (target : Target) (s : Endpoint) : TntError × Endpoint :=
  match target with
  | .tcp resolved => tntIoConnectTcp tmout resolved s
  | .unix a => tntIoConnectUnix tmout a s
  | .other => (.fail, s)

/-- `tnt_io_connect`. -/
def tntIoConnect (tmout : Timeval) (target : Target) (s : Endpoint) : TntError × Endpoint :=
  let (result, s) := tntIoReach tmout target s
  if result ≠ .ok then (result, s) else (.ok, { s with connected := true })

/-- `tnt_close`. -/
def tntClose (s : Endpoint) : Endpoint :=
  let s := { s with
    session := { s.session with sbuf := tntIobClear s.session.sbuf, rbuf := tntIobClear s.session.rbuf } }
  let s := tntIoClose s
  { s with session := { s.session with wrcnt := 0, reqid := 0 } }

/-- A use of `tnt_connect`: the options of the moment, the blocks the allocator has for the buffers
(and whether it has one for the schema), and what is said over the connection.  Without a login
there is nothing to authenticate. -/
structure Peer where
  schema : Bool
  sendCbv : Bool
  sblock : Option Bytes
  rblock : Option Bytes
  tmoutConnect : Timeval
  target : Target
  greeting : Session → Int × Session
  authenticate : Option (Session → Int × Session)

/-- `tnt_init`. -/
def tntInit (p : Peer) (s : Endpoint) : Int × Endpoint :=
  let noMemory := fun s : Endpoint => (-1, { s with session := { s.session with error := .memory } })
  if !p.schema then noMemory s
  else
    match p.sblock with
    | none => noMemory s
    | some sblock =>
      let s := { s with session := { s.session with sbuf := tntIobInit sblock p.sendCbv } }
      match p.rblock with
      | none => noMemory s
      | some rblock =>
        (0, { s with inited := true, session := { s.session with rbuf := tntIobInit rblock false } })

/-- `tnt_connect`, up to `tnt_io_connect`. -/
def beforeConnect (p : Peer) (s : Endpoint) : Endpoint :=
  let s := if s.inited then s else (tntInit p s).2
  if s.connected then tntClose s else s

/-- `tnt_connect`. -/
def tntConnect (p : Peer) (s : Endpoint) : Int × Endpoint :=
  let (error, s) := tntIoConnect p.tmoutConnect p.target (beforeConnect p s)
  let s := { s with session := { s.session with error := error } }
  if error ≠ .ok then (-1, s)
  else
    let (rc, session) := p.greeting s.session
    let s := { s with session := session }
    if rc = -1 ∨ session.error ≠ .ok then (-1, s)
    else
      match p.authenticate with
      | none => (0, s)
      | some authenticate =>
        let (rc, session) := authenticate session
        (if rc = -1 then -1 else 0, { s with session := session })

/-- `tnt_net`: the stream is cleared, and there is no descriptor. -/
def tntNet : Endpoint where
  fd := -1
  connected := false
  inited := false
  session := ⟨⟨none, 0, 0, 0, false⟩, ⟨none, 0, 0, 0, false⟩, .ok, 0, 0, 0⟩
  opened := []

/-- What a program does with the stream, as far as descriptors are concerned. -/
inductive Command where
  | connect (p : Peer)
  | close

def Command.run : Command → Endpoint → Endpoint
  | .connect p, s => (tntConnect p s).2
  | .close, s => tntClose s

/-! ## §3 — what is promised. -/

def Target.addresses : Target → List Address
  | .tcp resolved => resolved
  | .unix a => [a]
  | .other => []

def Target.isUnix : Target → Bool
  | .unix _ => true
  | _ => false

/-- The address can be connected. -/
def Address.connects (unix : Bool) (tmout : Timeval) (a : Address) : Bool :=
  match a.socket, a.options unix with
  | .ok _, .ok () => (a.connect unix tmout 0).1 = .ok
  | _, _ => false

/-- No descriptor is open, and none is claimed. -/
def Endpoint.Closed (s : Endpoint) : Prop := s.opened = [] ∧ s.fd < 0

/-- A call of `tnt_connect` succeeds in connecting exactly if some address can be connected, and
then has the descriptor of the first and no other; if not, and after `tnt_close`, there is none. -/
def Honest (s : Endpoint) : Command → Prop
  | .close => (tntClose s).Closed
  | .connect p =>
    let connects := Address.connects p.target.isUnix p.tmoutConnect
    let result := (tntIoConnect p.tmoutConnect p.target (beforeConnect p s)).1
    let s' := (tntConnect p s).2
    (result = .ok ↔ ∃ a ∈ p.target.addresses, connects a = true) ∧
    (result = .ok → ∃ a fd, p.target.addresses.find? connects = some a ∧ a.socket = .ok fd ∧
      s'.fd = fd ∧ s'.opened = [fd]) ∧
    (result ≠ .ok → s'.Closed)

/-- The addresses that are tried in vain. -/
def Peer.failing (p : Peer) : List Address :=
  p.target.addresses.takeWhile fun a => !a.connects p.target.isUnix p.tmoutConnect

/-- `tnt_io_close` does not meet the descriptor 0: the stream does not hold it when it is closed,
and no address that is tried in vain was given it. -/
def Spares (s : Endpoint) : Command → Prop
  | .close => s.fd ≠ 0
  | .connect p => (s.connected = true → s.fd ≠ 0) ∧ ∀ a ∈ p.failing, a.socket ≠ .ok 0

/-- Every call of a sequence, in the state it finds. -/
def Throughout (P : Endpoint → Command → Prop) : Endpoint → List Command → Prop
  | _, [] => True
  | s, c :: cs => P s c ∧ Throughout P (c.run s) cs

/-! ## §4 — one address.

An attempt connects, or closes what it has opened; or leaves the descriptor 0 open. -/

section Tries

variable {unix : Bool} {tmout : Timeval}

/-- Whether the connection succeeds does not depend on an old error number. -/
theorem Address.connect_result (a : Address) (e : Int) :
    (a.connect unix tmout e).1 = (a.connect unix tmout 0).1 := by
  unfold Address.connect
  split_ifs
  · split
    · rfl
    · rfl
  · have hsame : SameCourse ⟨tmout, e, a.kernel⟩ ⟨tmout, 0, a.kernel⟩ := ⟨rfl, rfl⟩
    have hcourse := tntIoConnectDo_course (a.interruptions + 1) hsame
    rcases hcourse.cases with ⟨hnone, -⟩ | ⟨result, s, s', hr, hr', -⟩
    · rcases tntIoConnectDo_returns a.interruptions (s := ⟨tmout, e, a.kernel⟩) a.settles with ⟨r, hr⟩
      exact absurd (hr.symm.trans hnone) (by simp)
    · simp only [Address.connectDo, hr, hr', Option.get_some]

/-- A positive descriptor is closed. -/
theorem tntIoClose_pos {s : Endpoint} {fd : Nat} {opened : List Nat} (hfd : s.fd = fd)
    (hopened : s.opened = fd :: opened) (hpos : fd ≠ 0) :
    (tntIoClose s).fd = -1 ∧ (tntIoClose s).opened = opened := by
  have hlt : 0 < s.fd := by omega
  have hnat : s.fd.toNat = fd := by omega
  rw [tntIoClose, if_pos hlt, hnat, hopened, List.erase_cons_head]
  exact ⟨rfl, rfl⟩

/-- The descriptor 0 stays. -/
theorem tntIoClose_zero {s : Endpoint} (hfd : s.fd = 0) :
    tntIoClose s = { s with connected := false } := by
  rw [tntIoClose, if_neg (by omega)]

/-- What trying an address leaves open when it is in vain: 0, if that was the descriptor. -/
def Address.leaves (a : Address) : List Nat :=
  match a.socket with
  | .ok 0 => [0]
  | _ => []

/-- What is left behind is the descriptor 0, ... -/
theorem Address.leaves_eq_nil {a : Address} (h : a.socket ≠ .ok 0) : a.leaves = [] := by
  unfold Address.leaves
  split
  · rename_i hsocket
    exact absurd hsocket h
  · rfl

/-- ... for a stream that is closed is not connected, whatever its number. -/
theorem tntIoClose_connected (s : Endpoint) : (tntIoClose s).connected = false := by
  unfold tntIoClose
  split_ifs
  · rfl
  · rfl

/-- A descriptor whose connection failed goes through `tnt_io_close`. -/
theorem tntIoClose_tried {s t : Endpoint} {a : Address} {fd : Nat} (hsocket : a.socket = .ok fd)
    (hfd : s.fd = fd) (hopened : s.opened = fd :: t.opened) :
    (tntIoClose s).opened = a.leaves ++ t.opened ∧
      (a.socket ≠ .ok 0 → (tntIoClose s).fd = -1) := by
  by_cases hzero : fd = 0
  · subst hzero
    rw [tntIoClose_zero hfd, Address.leaves, hsocket]
    exact ⟨hopened, fun hne => absurd rfl hne⟩
  · have hne : a.socket ≠ .ok 0 := by
      rw [hsocket]
      exact fun h => hzero (Except.ok.inj h)
    rcases tntIoClose_pos hfd hopened hzero with ⟨hfd', hopened'⟩
    rw [Address.leaves_eq_nil hne]
    exact ⟨hopened', fun _ => hfd'⟩

/-- **One address**: a connection over a new descriptor, or nothing but what it leaves.  What it
leaves is what `tnt_io_close` did not take for a descriptor. -/
theorem tntIoTry_spec (unix : Bool) (tmout : Timeval) (a : Address) (s : Endpoint) :
    (a.connects unix tmout = true ∧ ∃ fd s', a.socket = .ok fd ∧
      tntIoTry unix tmout a s = (.ok, s') ∧ s'.fd = fd ∧ s'.opened = fd :: s.opened) ∨
    (a.connects unix tmout = false ∧ ∃ result s', tntIoTry unix tmout a s = (result, s') ∧
      result ≠ .ok ∧ (s.connected = false → s'.connected = false) ∧
      s'.opened = a.leaves ++ s.opened ∧ (a.socket ≠ .ok 0 → s'.fd = -1)) := by
  cases hsocket : a.socket with
  | error e =>
    right
    refine ⟨by simp only [Address.connects, hsocket], .system, { s.setErrno e with fd := -1 }, ?_,
      by decide, fun h => h, ?_, fun _ => rfl⟩
    · simp only [tntIoTry, hsocket]
    · rw [Address.leaves_eq_nil (by rw [hsocket]; simp)]
      rfl
  | ok fd =>
    -- whatever fails behind `socket` ends in `tnt_io_close` with this descriptor
    have hclose := fun e => tntIoClose_tried (t := s) (s := (s.setFd fd).setErrno e) hsocket rfl rfl
    rw [hsocket] at hclose
    cases hoptions : a.options unix with
    | error e =>
      right
      refine ⟨by simp only [Address.connects, hsocket, hoptions], .system,
        tntIoClose ((s.setFd fd).setErrno e), ?_, by decide,
        fun _ => tntIoClose_connected _, hclose e⟩
      simp only [tntIoTry, hsocket, tntIoSetopts, hoptions]
      rfl
    | ok done =>
      have hresult : (a.connect unix tmout s.session.errno).1 = (a.connect unix tmout 0).1 :=
        a.connect_result _
      have herrno : (s.setFd fd).session.errno = s.session.errno := rfl
      by_cases hok : (a.connect unix tmout 0).1 = .ok
      · left
        refine ⟨by simp only [Address.connects, hsocket, hoptions, hok, decide_true], fd,
          (s.setFd fd).setErrno (a.connect unix tmout s.session.errno).2, rfl, ?_, rfl, rfl⟩
        simp only [tntIoTry, hsocket, tntIoSetopts, hoptions, herrno, hresult, hok, ne_eq,
          not_true_eq_false, if_false]
      · right
        refine ⟨by simp only [Address.connects, hsocket, hoptions, hok, decide_false],
          (a.connect unix tmout 0).1,
          tntIoClose ((s.setFd fd).setErrno (a.connect unix tmout s.session.errno).2), ?_, hok,
          fun _ => tntIoClose_connected _, hclose _⟩
        simp only [tntIoTry, hsocket, tntIoSetopts, hoptions, herrno, hresult, hok, ne_eq,
          not_true_eq_false, not_false_eq_true, if_true, if_false]

end Tries

/-! ## §5 — all addresses.

An induction on the addresses, up to the first that connects. -/

/-- The descriptors that stay open behind the addresses tried in vain, the newest first. -/
def wasted (connects : Address → Bool) (l : List Address) : List Nat :=
  (l.takeWhile fun a => !connects a).reverse.flatMap Address.leaves

/-- Behind the first address that can be connected none is tried. -/
theorem wasted_cons_connects {connects : Address → Bool} {a : Address} (h : connects a = true)
    (l : List Address) : wasted connects (a :: l) = [] := by
  simp [wasted, h]

/-- One that cannot leaves what it leaves. -/
theorem wasted_cons_fails {connects : Address → Bool} {a : Address} (h : connects a = false)
    (l : List Address) : wasted connects (a :: l) = wasted connects l ++ a.leaves := by
  simp [wasted, h]

/-- **Nothing is left open** exactly if no address tried in vain was given 0. -/
theorem wasted_eq_nil {connects : Address → Bool} {l : List Address} :
    wasted connects l = [] ↔ ∀ a ∈ l.takeWhile fun a => !connects a, a.socket ≠ .ok 0 := by
  rw [wasted, List.flatMap_eq_nil_iff]
  constructor
  · intro h a ha hzero
    have hleaves := h a (List.mem_reverse.mpr ha)
    rw [Address.leaves, hzero] at hleaves
    exact absurd hleaves (by simp)
  · intro h a ha
    exact Address.leaves_eq_nil (h a (List.mem_reverse.mp ha))

/-- What is known when the addresses have been tried: the first that can be connected is, and what
the others have left is there too. -/
def Settled (connects : Address → Bool) (l : List Address) (s : Endpoint)
    (r : TntError × Endpoint) : Prop :=
  match l.find? connects with
  | some a => ∃ fd : Nat, a.socket = .ok fd ∧ r.1 = .ok ∧ r.2.fd = fd ∧
      r.2.opened = fd :: (wasted connects l ++ s.opened)
  | none => r.1 ≠ .ok ∧ r.2.opened = wasted connects l ++ s.opened ∧
      (s.connected = false → r.2.connected = false) ∧
      (wasted connects l = [] → s.fd < 0 → r.2.fd < 0)

/-- One address more. -/
theorem Settled.cons {connects : Address → Bool} {a : Address} (ha : connects a = false)
    {l : List Address} {s s' : Endpoint} {r : TntError × Endpoint} (h : Settled connects l s' r)
    (hopened : s'.opened = a.leaves ++ s.opened)
    (hconnected : s.connected = false → s'.connected = false)
    (hfd : a.socket ≠ .ok 0 → s'.fd = -1) : Settled connects (a :: l) s r := by
  rw [Settled, List.find?_cons_of_neg (by simp [ha]), wasted_cons_fails ha, List.append_assoc]
  rw [Settled, hopened] at h
  cases hfind : l.find? connects with
  | some b =>
    rw [hfind] at h
    exact h
  | none =>
    rw [hfind] at h
    rcases h with ⟨hresult, hopened', hconnected', hneg⟩
    refine ⟨hresult, hopened', fun hs => hconnected' (hconnected hs), ?_⟩
    intro hnil _
    rcases List.append_eq_nil_iff.mp hnil with ⟨hl, hleaves⟩
    apply hneg hl
    rw [hfd]
    · decide
    · intro hzero
      rw [Address.leaves, hzero] at hleaves
      exact absurd hleaves (by simp)

/-- **The loop over the addresses**, by induction on their list.  The first address that connects
ends it; those before it have been closed, or left a 0 behind. -/
theorem connectLoop_spec (tmout : Timeval) (l : List Address) {result : TntError} (s : Endpoint)
    (hresult : l = [] → result ≠ .ok) :
    Settled (Address.connects false tmout) l s (connectLoop tmout l result s) := by
  induction l generalizing result s with
  | nil => exact ⟨hresult rfl, rfl, fun h => h, fun _ h => h⟩
  | cons a l ih =>
    rcases tntIoTry_spec false tmout a s with ⟨hconn, fd, s', hsocket, htry, hfd, hopened⟩ |
      ⟨hconn, result', s', htry, hne, hconnected, hopened, hfd⟩
    · have hloop : connectLoop tmout (a :: l) result s = (.ok, s') := by rw [connectLoop, htry]
      rw [hloop, Settled, List.find?_cons_of_pos hconn, wasted_cons_connects hconn]
      exact ⟨fd, hsocket, rfl, hfd, hopened⟩
    · have hloop : connectLoop tmout (a :: l) result s = connectLoop tmout l result' s' := by
        rw [connectLoop, htry]
        cases result' with
        | ok => exact absurd rfl hne
        | _ => rfl
      rw [hloop]
      exact (ih s' fun _ => hne).cons hconn hopened hconnected hfd

/-- **Whatever the target**, its addresses are tried in order.  A name is looked up and has any
number of addresses, and a path has one. -/
theorem tntIoReach_spec (tmout : Timeval) (target : Target) (s : Endpoint) :
    Settled (Address.connects target.isUnix tmout) target.addresses s
      (tntIoReach tmout target s) := by
  cases target with
  | tcp resolved =>
    show Settled (Address.connects false tmout) resolved s (tntIoConnectTcp tmout resolved s)
    unfold tntIoConnectTcp
    split_ifs with hnil
    · subst hnil
      exact ⟨by simp, rfl, fun h => h, fun _ h => h⟩
    · exact connectLoop_spec tmout resolved s fun h => absurd h hnil
  | unix a =>
    show Settled (Address.connects true tmout) [a] s (tntIoTry true tmout a s)
    rcases tntIoTry_spec true tmout a s with ⟨hconn, fd, s', hsocket, htry, hfd, hopened⟩ |
      ⟨hconn, result', s', htry, hne, hconnected, hopened, hfd⟩
    · rw [htry, Settled, List.find?_cons_of_pos hconn, wasted_cons_connects hconn]
      exact ⟨fd, hsocket, rfl, hfd, hopened⟩
    · have hnone : Settled (Address.connects true tmout) [] s' (result', s') :=
        ⟨hne, rfl, fun h => h, fun _ h => h⟩
      rw [htry]
      exact hnone.cons hconn hopened hconnected hfd
  | other => exact ⟨by simp [tntIoReach], rfl, fun h => h, fun _ h => h⟩

/-! ## §6 — runs.

Calls of `tnt_connect` and `tnt_close` in any order, each with its own addresses. -/

/-- `s'` is `s` as far as descriptors are concerned. -/
structure SameDescriptors (s s' : Endpoint) : Prop where
  fd : s'.fd = s.fd
  connected : s'.connected = s.connected
  opened : s'.opened = s.opened

/-- Filling the buffers touches no descriptor, ... -/
theorem tntInit_same (p : Peer) (s : Endpoint) : SameDescriptors s (tntInit p s).2 := by
  unfold tntInit
  split_ifs
  · exact ⟨rfl, rfl, rfl⟩
  · cases p.sblock with
    | none => exact ⟨rfl, rfl, rfl⟩
    | some sblock => cases p.rblock <;> exact ⟨rfl, rfl, rfl⟩

/-- ... and `tnt_close` touches those that `tnt_io_close` does. -/
theorem tntClose_same (s : Endpoint) : SameDescriptors (tntIoClose s) (tntClose s) := by
  unfold tntClose tntIoClose
  dsimp only
  split_ifs
  · exact ⟨rfl, rfl, rfl⟩
  · exact ⟨rfl, rfl, rfl⟩

/-- What is said over the connection leaves the descriptor alone. -/
theorem tntConnect_same (p : Peer) (s : Endpoint) :
    SameDescriptors (tntIoConnect p.tmoutConnect p.target (beforeConnect p s)).2
      (tntConnect p s).2 := by
  unfold tntConnect
  dsimp only
  split_ifs
  · exact ⟨rfl, rfl, rfl⟩
  · exact ⟨rfl, rfl, rfl⟩
  · cases p.authenticate <;> exact ⟨rfl, rfl, rfl⟩

/-- A stream between two calls: not connected and closed, or connected over its only descriptor. -/
def Endpoint.Tidy (s : Endpoint) : Prop :=
  (s.connected = false ∧ s.Closed) ∨
    (s.connected = true ∧ ∃ fd : Nat, s.fd = fd ∧ s.opened = [fd])

/-- A new stream is tidy. -/
theorem tntNet_tidy : tntNet.Tidy := .inl ⟨rfl, rfl, by decide⟩

/-- Closing a tidy stream: nothing is left, unless its descriptor is 0. -/
theorem tntClose_tidy {s : Endpoint} (h : s.Tidy) :
    (tntClose s).connected = false ∧ (s.fd ≠ 0 → (tntClose s).Closed) ∧
      (s.fd = 0 → (tntClose s).opened ≠ []) := by
  have hsame := tntClose_same s
  rw [Endpoint.Closed, hsame.connected, hsame.fd, hsame.opened]
  refine ⟨tntIoClose_connected s, ?_⟩
  rcases h with ⟨-, hopened, hneg⟩ | ⟨-, fd, hfd, hopened⟩
  · have hclose : tntIoClose s = { s with connected := false } := by
      rw [tntIoClose, if_neg (by omega)]
    rw [hclose]
    exact ⟨fun _ => ⟨hopened, hneg⟩, fun hzero => by omega⟩
  · constructor
    · intro hne
      rcases tntIoClose_pos hfd hopened (by omega) with ⟨hfd', hopened'⟩
      rw [hfd']
      exact ⟨hopened', by decide⟩
    · intro hzero
      rw [tntIoClose_zero hzero, hopened]
      exact List.cons_ne_nil _ _

/-- What `tnt_connect` finds when it comes to `tnt_io_connect`. -/
theorem beforeConnect_tidy (p : Peer) {s : Endpoint} (h : s.Tidy) :
    (beforeConnect p s).connected = false ∧
      ((s.connected = true → s.fd ≠ 0) → (beforeConnect p s).Closed) ∧
      (s.connected = true → s.fd = 0 → (beforeConnect p s).opened ≠ []) := by
  obtain ⟨s₁, hs₁, hsame⟩ : ∃ s₁, s₁ = (if s.inited then s else (tntInit p s).2) ∧
      SameDescriptors s s₁ := by
    refine ⟨_, rfl, ?_⟩
    split_ifs
    · exact ⟨rfl, rfl, rfl⟩
    · exact tntInit_same p s
  have htidy : s₁.Tidy := by
    rw [Endpoint.Tidy, Endpoint.Closed, hsame.fd, hsame.connected, hsame.opened]
    exact h
  have hbefore : beforeConnect p s = if s₁.connected then tntClose s₁ else s₁ := by
    rw [hs₁]
    rfl
  rw [hbefore, ← hsame.connected, ← hsame.fd]
  rcases htidy with ⟨hconn, hclosed⟩ | ⟨hconn, hfd⟩
  · rw [hconn, if_neg (by decide)]
    exact ⟨hconn, fun _ => hclosed, fun h => absurd h (by decide)⟩
  · rcases tntClose_tidy (.inr ⟨hconn, hfd⟩) with ⟨hoff, hspared, hzero⟩
    rw [hconn, if_pos rfl]
    exact ⟨hoff, fun h => hspared (h rfl), fun _ => hzero⟩

/-- `tnt_io_close` is spared the descriptor 0, seen from the descriptors. -/
theorem spares_connect_iff (p : Peer) {s : Endpoint} (h : s.Tidy) :
    Spares s (.connect p) ↔
      wasted (Address.connects p.target.isUnix p.tmoutConnect) p.target.addresses = [] ∧
        (beforeConnect p s).Closed := by
  rcases beforeConnect_tidy p h with ⟨-, hclosed, hzero⟩
  constructor
  · rintro ⟨hconn, hfailing⟩
    exact ⟨wasted_eq_nil.mpr hfailing, hclosed hconn⟩
  · rintro ⟨hnil, hopened, -⟩
    exact ⟨fun hconn h0 => hzero hconn h0 hopened, wasted_eq_nil.mp hnil⟩

/-- **One call of `tnt_connect`** on a tidy stream.  The old connection is closed first, so the
descriptor 0 may be met twice in it: there, and among the addresses. -/
theorem connect_honest (p : Peer) {s : Endpoint} (h : s.Tidy) :
    (Honest s (.connect p) ↔ Spares s (.connect p)) ∧
      (Spares s (.connect p) → ((Command.connect p).run s).Tidy) := by
  rcases beforeConnect_tidy p h with ⟨hoff, hclosed, hzero⟩
  have hsame := tntConnect_same p s
  have hreach := tntIoReach_spec p.tmoutConnect p.target (beforeConnect p s)
  have hspares := spares_connect_iff p h
  obtain ⟨result, s', hr⟩ : ∃ result s',
      tntIoReach p.tmoutConnect p.target (beforeConnect p s) = (result, s') := ⟨_, _, rfl⟩
  rw [hr, Settled] at hreach
  cases hfind : p.target.addresses.find?
      (Address.connects p.target.isUnix p.tmoutConnect) with
  | some a =>
    rw [hfind] at hreach
    rcases hreach with ⟨fd, hsocket, hok, hfd, hopened⟩
    dsimp only at hok hfd hopened
    have hconnect : tntIoConnect p.tmoutConnect p.target (beforeConnect p s) =
        (.ok, { s' with connected := true }) := by
      simp only [tntIoConnect, hr, hok, ne_eq, not_true_eq_false, if_false]
    rw [hconnect] at hsame
    have hfd' : (tntConnect p s).2.fd = fd := hsame.fd.trans hfd
    have hopened' : (tntConnect p s).2.opened = fd :: _ := hsame.opened.trans hopened
    constructor
    · constructor
      · rintro ⟨-, hfirst, -⟩
        -- the descriptor would not be the only one
        rw [hconnect] at hfirst
        rcases hfirst rfl with ⟨b, n, -, -, -, honly⟩
        rw [hopened'] at honly
        rcases List.append_eq_nil_iff.mp (List.cons.inj honly).2 with ⟨hnil, hbefore⟩
        exact ⟨fun hconn h0 => hzero hconn h0 hbefore, wasted_eq_nil.mp hnil⟩
      · intro hs
        rcases hspares.mp hs with ⟨hnil, hbefore, -⟩
        rw [hnil, hbefore] at hopened'
        rw [Honest, hconnect]
        refine ⟨⟨fun _ => ?_, fun _ => rfl⟩, fun _ => ⟨a, fd, hfind, hsocket, hfd', hopened'⟩,
          fun hne => absurd rfl hne⟩
        exact ⟨a, List.mem_of_find?_eq_some hfind, List.find?_some hfind⟩
    · intro hs
      rcases hspares.mp hs with ⟨hnil, hbefore, -⟩
      rw [hnil, hbefore] at hopened'
      exact .inr ⟨hsame.connected, fd, hfd', hopened'⟩
  | none =>
    rw [hfind] at hreach
    rcases hreach with ⟨hne, hopened, hconnected, hneg⟩
    dsimp only at hne hopened hconnected hneg
    have hconnect : tntIoConnect p.tmoutConnect p.target (beforeConnect p s) = (result, s') := by
      simp only [tntIoConnect, hr, hne, ne_eq, not_false_eq_true, if_true]
    rw [hconnect] at hsame
    have hopened' := hsame.opened.trans hopened
    have hdone : Spares s (.connect p) → (tntConnect p s).2.Closed := by
      intro hs
      rcases hspares.mp hs with ⟨hnil, hbefore, hlt⟩
      rw [hnil, hbefore] at hopened'
      refine ⟨hopened', ?_⟩
      rw [hsame.fd]
      exact hneg hnil hlt
    constructor
    · constructor
      · rintro ⟨-, -, hfail⟩
        rw [hconnect] at hfail
        rcases hfail hne with ⟨hnone, -⟩
        rw [hopened'] at hnone
        rcases List.append_eq_nil_iff.mp hnone with ⟨hnil, hbefore⟩
        exact ⟨fun hconn h0 => hzero hconn h0 hbefore, wasted_eq_nil.mp hnil⟩
      · intro hs
        rw [Honest, hconnect]
        refine ⟨⟨fun hok => absurd hok hne, ?_⟩, fun hok => absurd hok hne, fun _ => hdone hs⟩
        rintro ⟨a, ha, hconn⟩
        exact absurd hconn (List.find?_eq_none.mp hfind a ha)
    · intro hs
      exact .inl ⟨hsame.connected.trans (hconnected hoff), hdone hs⟩

/-- **One call** on a tidy stream: the promise is kept exactly if `tnt_io_close` is spared the
descriptor 0, and then the stream is tidy again. -/
theorem step_honest {s : Endpoint} (h : s.Tidy) (c : Command) :
    (Honest s c ↔ Spares s c) ∧ (Spares s c → (c.run s).Tidy) := by
  cases c with
  | close =>
    rcases tntClose_tidy h with ⟨hoff, hspared, hzero⟩
    refine ⟨⟨fun hclosed h0 => hzero h0 hclosed.1, hspared⟩, ?_⟩
    intro hne
    exact .inl ⟨hoff, hspared hne⟩
  | connect p => exact connect_honest p h

/-- **A run** keeps the promise in every call exactly if every call spares the descriptor 0. -/
theorem throughout_honest_iff {s : Endpoint} (h : s.Tidy) (cs : List Command) :
    Throughout Honest s cs ↔ Throughout Spares s cs := by
  induction cs generalizing s with
  | nil => exact Iff.rfl
  | cons c cs ih =>
    rcases step_honest h c with ⟨hiff, htidy⟩
    constructor
    · rintro ⟨hc, hcs⟩
      have hspares := hiff.mp hc
      exact ⟨hspares, (ih (htidy hspares)).mp hcs⟩
    · rintro ⟨hspares, hcs⟩
      exact ⟨hiff.mpr hspares, (ih (htidy hspares)).mpr hcs⟩

/-- **Descriptors.**  In every sequence of calls of `tnt_connect` and `tnt_close` on a new stream,
over all addresses and everything the kernel may answer: each connects exactly if it can, over the
first address that can be connected and with no other descriptor open, and leaves no descriptor
behind if it cannot or is asked to close — if and only if no call makes `tnt_io_close` meet the
descriptor 0.  `tnt_io_close` takes a descriptor above 0 for an open one.  A process that has closed
its standard input gets 0 for the next socket, and this one is never closed.  The invariant is that
at most one descriptor is open and that the stream knows it; each call keeps it, or is the one that
makes `tnt_io_close` meet the 0. -/
theorem run_honest_iff (cs : List Command) :
    Throughout Honest tntNet cs ↔ Throughout Spares tntNet cs :=
  throughout_honest_iff tntNet_tidy cs

/-- A server that refuses the connection, and the descriptor the attempt is given. -/
def refusing (fd : Nat) : Address where
  socket := .ok fd
  setsockopt := fun _ => .ok ()
  kernel :=
    { flags := 2, conn := .idle, errno := 0, clock := 0
      fcntl := fun _ => .ok ()
      -- `ECONNREFUSED`
      connect := fun _ => .error 111
      poll := fun _ => .ok none
      gettimeofday := fun _ => .ok ⟨0, 0⟩
      getsockopt := fun _ => .ok () }
  interruptions := 0
  settles := by
    rintro ⟨e, he, -⟩
    exact absurd he (by simp)

def refusedPeer (fd : Nat) : Peer where
  schema := true
  sendCbv := false
  sblock := some []
  rblock := some []
  tmoutConnect := ⟨16, 0⟩
  target := .tcp [refusing fd]
  greeting := fun session => (128, session)
  authenticate := none

/-- In a process without standard input: the refused connection stays open, and the stream keeps its
descriptor. -/
theorem run_honest_daemon :
    ¬ Throughout Honest tntNet [.connect (refusedPeer 0)] ∧
      ((Command.connect (refusedPeer 0)).run tntNet).opened = [0] ∧
      ((Command.connect (refusedPeer 0)).run tntNet).fd = 0 := by
  have hopened : ((Command.connect (refusedPeer 0)).run tntNet).opened = [0] := rfl
  have hresult : (tntIoConnect (refusedPeer 0).tmoutConnect (refusedPeer 0).target
      (beforeConnect (refusedPeer 0) tntNet)).1 ≠ .ok := by decide
  refine ⟨?_, hopened, rfl⟩
  rintro ⟨⟨-, -, hfail⟩, -⟩
  have hclosed := (hfail hresult).1
  exact absurd (hclosed.symm.trans hopened) (by decide)

end TarantoolC.Io
