/-
# TarantoolC.Io.Connect — `tnt_io_connect_do`, over every sequence of outcomes of its system calls.

The function makes its socket non-blocking, so that `connect` can be given a time limit, waits, and
makes the socket blocking again: the loops that send and receive take `EAGAIN` for an error.  A
connection that is there at once leaves the function before the last step.

Behind the descriptor stands the kernel: it holds the status flags and what has become of the
connection, and decides by an oracle what each call does.  `tntIoConnectDo_blocking_iff`: a success
is an established connection in blocking mode, exactly if `connect` did not succeed at once.
`tntIoConnectDo_returns`: the function returns if waiting ends.

The calls are those of the function, in its order: `fcntl` to read and to set the flags, `connect`,
`poll` with the time that is left, `gettimeofday`, `getsockopt` for the error that the connection
came to.  Each asks the kernel's oracle once and moves its clock on.  A wait that is interrupted is
begun again with less time; the loop has no bound of its own, and the model runs on fuel
(`tntIoConnectWait_returns` says how much is enough if the interruptions end).

The course of an attempt depends on the kernel, not on the error number that an earlier call has
left behind (`tntIoConnectDo_course`): that is what lets an attempt be judged by its address alone
in `TarantoolC.Io.Descriptors`.
-/
import TarantoolC.Io.Stream

namespace TarantoolC.Io

/-! ## §1 — the kernel.

Its answers are a function of a clock, so that the same call may get another answer the next time,
and nothing is known of them beforehand. -/

/-- `struct timeval`; a `long` holds what is computed from it. -/
structure Timeval where
  sec : Int
  usec : Int
  deriving Repr, DecidableEq

/-- What has become of a connection.  Once the handshake is over, `SO_ERROR` is how it ended: 0 if
there is a connection. -/
inductive Conn where
  | idle
  | pending
  | over (error : Int)
  deriving Repr, DecidableEq

def eintr : Int := 4
def eagain : Int := 11
def einprogress : Int := 115

/-- `O_NONBLOCK`. -/
def oNonblock : UInt32 := 0x800

/-- The descriptor, and what the calls on it are going to do: fail with an error number, or succeed.
An event that `poll` reports says how the handshake ended; `none` is its time limit. -/
structure Kernel where
  flags : UInt32
  conn : Conn
  errno : Int
  /-- How many calls have been made. -/
  clock : Nat
  fcntl : Nat → Except Int Unit
  connect : Nat → Except Int Unit
  poll : Nat → Except Int (Option Int)
  gettimeofday : Nat → Except Int Timeval
  getsockopt : Nat → Except Int Unit

namespace Kernel

/-- A call has been made. -/
def tick (k : Kernel) : Kernel := { k with clock := k.clock + 1 }

/-- A call has failed. -/
def failed (k : Kernel) (e : Int) : Kernel := { k.tick with errno := e }

/-- `fcntl(fd, F_GETFL)`. -/
def callGetfl (k : Kernel) : Option UInt32 × Kernel :=
  match k.fcntl k.clock with
  | .error e => (none, k.failed e)
  | .ok () => (some k.flags, k.tick)

/-- `fcntl(fd, F_SETFL, flags)`. -/
def callSetfl (k : Kernel) (flags : UInt32) : Option Unit × Kernel :=
  match k.fcntl k.clock with
  | .error e => (none, k.failed e)
  | .ok () => (some (), { k.tick with flags := flags })

/-- `connect(fd, addr, addr_size)`. -/
def callConnect (k : Kernel) : Option Unit × Kernel :=
  match k.connect k.clock with
  | .error e => (none, { k.failed e with conn := if e = einprogress then .pending else k.conn })
  | .ok () => (some (), { k.tick with conn := .over 0 })

/-- `poll` for `POLLOUT`: whether there was an event. -/
def callPoll (k : Kernel) : Option Bool × Kernel :=
  match k.poll k.clock with
  | .error e => (none, k.failed e)
  | .ok none => (some false, k.tick)
  | .ok (some error) => (some true, { k.tick with conn := .over error })

/-- `gettimeofday`. -/
def callGettimeofday (k : Kernel) : Option Timeval × Kernel :=
  match k.gettimeofday k.clock with
  | .error e => (none, k.failed e)
  | .ok tv => (some tv, k.tick)

/-- `getsockopt(fd, SOL_SOCKET, SO_ERROR, &opt, &len)`. -/
def callGetsockopt (k : Kernel) : Option Int × Kernel :=
  match k.getsockopt k.clock with
  | .error e => (none, k.failed e)
  | .ok () => (some (match k.conn with | .over error => error | _ => 0), k.tick)

/-- The connection is established. -/
def Established (k : Kernel) : Prop := k.conn = .over 0

/-- `O_NONBLOCK` is clear. -/
def Blocking (k : Kernel) : Prop := k.flags &&& oNonblock = 0

instance (k : Kernel) : Decidable k.Blocking := inferInstanceAs (Decidable (_ = _))

end Kernel

/-! ## §2 — the code. -/

/-- The fields of `struct tnt_stream_net` that connecting uses. -/
structure Connecting where
  /-- `opt.tmout_connect`. -/
  tmoutConnect : Timeval
  errno : Int
  k : Kernel

/-- `s->errno_ = errno; return TNT_ESYSTEM;`. -/
def Connecting.system (s : Connecting) (k : Kernel) : TntError × Connecting :=
  (.system, { s with errno := k.errno, k := k })

/-- A `long` that is stored in an `int`. -/
def longToInt (x : Int) : Int := Int.bmod x (2 ^ 32)

/-- `TIMEVAL_TO_MSEC`. -/
def timevalToMsec (tv : Timeval) : Int := tv.sec * 1000 + tv.usec.tdiv 1000

/-- `TIMEVAL_DIFF_MSEC`. -/
def timevalDiffMsec (tv1 tv2 : Timeval) : Int :=
  (tv1.sec - tv2.sec) * 1000 + (tv1.usec - tv2.usec).tdiv 1000

/-- `tnt_io_nonblock`. -/
def tntIoNonblock (s : Connecting) (set : Bool) : TntError × Connecting :=
  match s.k.callGetfl with
  | (none, k) => s.system k
  | (some flags, k) =>
    match k.callSetfl (if set then flags ||| oNonblock else flags &&& ~~~oNonblock) with
    | (none, k) => s.system k
    | (some (), k) => (.ok, { s with k := k })

/-- The `while (1)`: the code it returns with, `TNT_EOK` for the `break`.  No result if `poll` was
interrupted `fuel` times. -/
def tntIoConnectPoll (timeout : Int) (startConnect : Timeval) :
    Nat → Connecting → Option (TntError × Connecting)
  | 0, _ => none
  | fuel + 1, s =>
    match s.k.callPoll with
    | (none, k) =>
      if k.errno = eintr ∨ k.errno = eagain then
        match k.callGettimeofday with
        | (none, k) => some (s.system k)
        | (some curr, k) =>
          if timeout ≤ longToInt (timevalDiffMsec curr startConnect) then
            some (.tmout, { s with k := k })
          else tntIoConnectPoll timeout startConnect fuel { s with k := k }
      else some (s.system k)
    | (some false, k) => some (.tmout, { s with k := k })
    | (some true, k) => some (.ok, { s with k := k })

/-- `if (errno == EINPROGRESS) { .. }`, with `TNT_EOK` where it goes on. -/
def tntIoConnectWait (fuel : Nat) (s : Connecting) : Option (TntError × Connecting) :=
  match s.k.callGettimeofday with
  | (none, k) => some (s.system k)
  | (some startConnect, k) => do
    let (result, s) ← tntIoConnectPoll (longToInt (timevalToMsec s.tmoutConnect)) startConnect fuel
      { s with k := k }
    if result ≠ .ok then return (result, s)
    match s.k.callGetsockopt with
    | (none, k) => return s.system k
    | (some opt, k) =>
      if opt ≠ 0 then return (.system, { s with errno := opt, k := k })
      return (.ok, { s with k := k })

/-- `tnt_io_connect_do`. -/
def tntIoConnectDo (fuel : Nat) (s : Connecting) : Option (TntError × Connecting) := do
  let (result, s) := tntIoNonblock s true
  if result ≠ .ok then return (result, s)
  match s.k.callConnect with
  | (some (), k) => return (.ok, { s with k := k })
  | (none, k) =>
    if k.errno = einprogress then
      let (result, s) ← tntIoConnectWait fuel { s with k := k }
      if result ≠ .ok then return (result, s)
      return tntIoNonblock s false
    else return s.system k

/-! ## §3 — the mode.

Setting the flags keeps all but the one that is asked for. -/

/-- The two bit operations do what they are for. -/
theorem blocking_of_clear (flags : UInt32) : flags &&& ~~~oNonblock &&& oNonblock = 0 := by
  rw [UInt32.and_assoc, UInt32.and_comm (~~~oNonblock), UInt32.and_not_self, UInt32.and_zero]

/-- A flag that is set is set. -/
theorem not_blocking_of_set (flags : UInt32) : (flags ||| oNonblock) &&& oNonblock ≠ 0 := by
  have hself : (flags ||| oNonblock) &&& oNonblock = oNonblock := by
    apply UInt32.toBitVec_inj.mp
    ext i hi
    rw [UInt32.toBitVec_and, UInt32.toBitVec_or, BitVec.getElem_and, BitVec.getElem_or]
    exact Bool.and_eq_right_iff_imp.mpr fun hbit => by rw [hbit, Bool.or_true]
  rw [hself]
  decide

/-- What a successful change of the mode does, and when it succeeds. -/
theorem tntIoNonblock_ok {s s' : Connecting} {set : Bool} (h : tntIoNonblock s set = (.ok, s')) :
    (s.k.fcntl s.k.clock = .ok () ∧ s.k.fcntl (s.k.clock + 1) = .ok ()) ∧
      s' = { s with k := { s.k with
        clock := s.k.clock + 2
        flags := if set then s.k.flags ||| oNonblock else s.k.flags &&& ~~~oNonblock } } := by
  unfold tntIoNonblock Kernel.callGetfl Kernel.callSetfl at h
  cases hget : s.k.fcntl s.k.clock with
  | error e =>
    rw [hget] at h
    exact absurd (congrArg Prod.fst h) (by simp [Connecting.system])
  | ok =>
    simp only [hget, Kernel.tick] at h
    cases hset : s.k.fcntl (s.k.clock + 1) with
    | error e =>
      rw [hset] at h
      exact absurd (congrArg Prod.fst h) (by simp [Connecting.system])
    | ok =>
      rw [hset] at h
      obtain ⟨-, rfl⟩ := Prod.mk.inj h
      exact ⟨⟨rfl, rfl⟩, rfl⟩

/-- Making the socket blocking again leaves the connection as it is. -/
theorem tntIoNonblock_clear {s s' : Connecting} (h : tntIoNonblock s false = (.ok, s'))
    (hconn : s.k.Established) : s'.k.Established ∧ s'.k.Blocking := by
  obtain ⟨-, rfl⟩ := tntIoNonblock_ok h
  exact ⟨hconn, blocking_of_clear s.k.flags⟩

/-! ## §4 — waiting.

An interruption goes round the loop; an event, a timeout or an error ends it. -/

/-- An event is the end of the handshake. -/
theorem Kernel.callPoll_event {k k' : Kernel} (h : k.callPoll = (some true, k')) :
    ∃ e, k'.conn = .over e := by
  unfold Kernel.callPoll at h
  cases hpoll : k.poll k.clock with
  | error e =>
    rw [hpoll] at h
    exact absurd (congrArg Prod.fst h) (by simp)
  | ok event =>
    cases event with
    | none =>
      rw [hpoll] at h
      exact absurd (congrArg Prod.fst h) (by simp)
    | some e =>
      rw [hpoll] at h
      obtain ⟨-, rfl⟩ := Prod.mk.inj h
      exact ⟨e, rfl⟩

/-- The loop goes on only after an event, however often it was interrupted. -/
theorem tntIoConnectPoll_ok {timeout : Int} {start : Timeval} {fuel : Nat} {s s' : Connecting}
    (h : tntIoConnectPoll timeout start fuel s = some (.ok, s')) : ∃ e, s'.k.conn = .over e := by
  induction fuel generalizing s with
  | zero => exact absurd h (by simp [tntIoConnectPoll])
  | succ fuel ih =>
    rw [tntIoConnectPoll] at h
    split at h
    · -- interrupted, or failed
      split_ifs at h
      · split at h
        · exact absurd h (by simp [Connecting.system])
        · split_ifs at h
          · exact absurd h (by simp)
          · exact ih h
      · exact absurd h (by simp [Connecting.system])
    · exact absurd h (by simp)
    · rename_i k hevent
      obtain ⟨-, rfl⟩ := Prod.mk.inj (Option.some.inj h)
      exact Kernel.callPoll_event hevent

/-- The call number `n`, if it is `poll`, is interrupted. -/
def Kernel.Interrupted (k : Kernel) (n : Nat) : Prop :=
  ∃ e, k.poll n = .error e ∧ (e = eintr ∨ e = eagain)

/-- A wait that fails has been interrupted, or worse. -/
theorem Kernel.callPoll_interrupted {k k' : Kernel} (h : k.callPoll = (none, k')) :
    k.poll k.clock = .error k'.errno ∧ k' = k.failed k'.errno := by
  unfold Kernel.callPoll at h
  cases hpoll : k.poll k.clock with
  | error e =>
    rw [hpoll] at h
    obtain ⟨-, rfl⟩ := Prod.mk.inj h
    exact ⟨rfl, rfl⟩
  | ok event =>
    cases event with
    | none =>
      rw [hpoll] at h
      exact absurd (congrArg Prod.fst h) (by simp)
    | some e =>
      rw [hpoll] at h
      exact absurd (congrArg Prod.fst h) (by simp)

/-- The time is asked without an effect. -/
theorem Kernel.callGettimeofday_some {k k' : Kernel} {tv : Timeval}
    (h : k.callGettimeofday = (some tv, k')) : k' = k.tick := by
  unfold Kernel.callGettimeofday at h
  split at h
  · exact absurd (congrArg Prod.fst h) (by simp)
  · exact (Prod.mk.inj h).2.symm

/-- The loop ends with the first `poll` that is not interrupted, if not before. -/
theorem tntIoConnectPoll_returns (timeout : Int) (start : Timeval) (n : Nat) {s : Connecting}
    (h : ¬ s.k.Interrupted (s.k.clock + 2 * n)) :
    ∃ r, tntIoConnectPoll timeout start (n + 1) s = some r := by
  induction n generalizing s with
  | zero =>
    rw [tntIoConnectPoll]
    split
    · rename_i k hpoll
      split_ifs with hint
      · exact absurd ⟨k.errno, (Kernel.callPoll_interrupted hpoll).1, hint⟩ h
      · exact ⟨_, rfl⟩
    · exact ⟨_, rfl⟩
    · exact ⟨_, rfl⟩
  | succ n ih =>
    rw [tntIoConnectPoll]
    split
    · rename_i k hpoll
      split_ifs with hint
      · split
        · exact ⟨_, rfl⟩
        · rename_i curr k' htime
          split_ifs
          · exact ⟨_, rfl⟩
          · -- two calls later the loop is where it was
            apply ih
            rw [Kernel.callGettimeofday_some htime, (Kernel.callPoll_interrupted hpoll).2]
            rw [show s.k.clock + 2 * (n + 1) = s.k.clock + 1 + 1 + 2 * n by omega] at h
            exact h
      · exact ⟨_, rfl⟩
    · exact ⟨_, rfl⟩
    · exact ⟨_, rfl⟩

/-- Connecting decides nothing about waiting. -/
theorem Kernel.callConnect_frame {k k' : Kernel} {r : Option Unit} (h : k.callConnect = (r, k')) :
    k'.poll = k.poll ∧ k'.clock = k.clock + 1 := by
  unfold Kernel.callConnect at h
  split at h
  · rcases Prod.mk.inj h with ⟨-, rfl⟩
    exact ⟨rfl, rfl⟩
  · rcases Prod.mk.inj h with ⟨-, rfl⟩
    exact ⟨rfl, rfl⟩

/-- **The wait ends**, if the interruptions do.  How many of them there are bounds the turns of the
loop. -/
theorem tntIoConnectWait_returns (n : Nat) {s : Connecting}
    (h : ¬ s.k.Interrupted (s.k.clock + 1 + 2 * n)) :
    ∃ r, tntIoConnectWait (n + 1) s = some r := by
  unfold tntIoConnectWait
  split
  · exact ⟨_, rfl⟩
  · rename_i start k htime
    have hpoll : ∃ r, tntIoConnectPoll (longToInt (timevalToMsec s.tmoutConnect)) start (n + 1)
        { s with k := k } = some r := by
      apply tntIoConnectPoll_returns
      rw [Kernel.callGettimeofday_some htime]
      exact h
    rcases hpoll with ⟨⟨result, s₁⟩, hpoll⟩
    simp only [hpoll, Option.bind_eq_bind, Option.bind_some]
    split_ifs
    · exact ⟨_, rfl⟩
    · split
      · exact ⟨_, rfl⟩
      · split_ifs
        · exact ⟨_, rfl⟩
        · exact ⟨_, rfl⟩

/-- The function returns if waiting ends: the fifth call is the first `poll`. -/
theorem tntIoConnectDo_returns (n : Nat) {s : Connecting}
    (h : ¬ s.k.Interrupted (s.k.clock + 4 + 2 * n)) : ∃ r, tntIoConnectDo (n + 1) s = some r := by
  unfold tntIoConnectDo
  obtain ⟨result, s₁, hmode⟩ : ∃ result s₁, tntIoNonblock s true = (result, s₁) := ⟨_, _, rfl⟩
  simp only [hmode]
  split_ifs with hresult
  · exact ⟨_, rfl⟩
  · rw [not_not] at hresult
    subst hresult
    rcases tntIoNonblock_ok hmode with ⟨-, hs₁⟩
    have hpoll₁ : s₁.k.poll = s.k.poll ∧ s₁.k.clock = s.k.clock + 2 := by rw [hs₁]; exact ⟨rfl, rfl⟩
    split
    · exact ⟨_, rfl⟩
    · rename_i k hconn
      have hk := Kernel.callConnect_frame hconn
      split_ifs
      · have hwait : ∃ r, tntIoConnectWait (n + 1) { s₁ with k := k } = some r := by
          apply tntIoConnectWait_returns
          rw [Kernel.Interrupted, hk.1, hk.2, hpoll₁.1, hpoll₁.2]
          exact h
        rcases hwait with ⟨⟨result, s₂⟩, hwait⟩
        simp only [hwait, Option.bind_eq_bind, Option.bind_some]
        split_ifs
        · exact ⟨_, rfl⟩
        · exact ⟨_, rfl⟩
      · exact ⟨_, rfl⟩

/-- `SO_ERROR` is what the handshake ended with. -/
theorem Kernel.callGetsockopt_spec {k k' : Kernel} {e opt : Int} (hconn : k.conn = .over e)
    (h : k.callGetsockopt = (some opt, k')) : opt = e ∧ k'.conn = .over e := by
  unfold Kernel.callGetsockopt at h
  cases hopt : k.getsockopt k.clock with
  | error n =>
    rw [hopt] at h
    exact absurd (congrArg Prod.fst h) (by simp)
  | ok =>
    rw [hopt, hconn] at h
    obtain ⟨hopt, rfl⟩ := Prod.mk.inj h
    exact ⟨(Option.some.inj hopt).symm, hconn⟩

/-- After a successful wait there is a connection. -/
theorem tntIoConnectWait_ok {fuel : Nat} {s s' : Connecting}
    (h : tntIoConnectWait fuel s = some (.ok, s')) : s'.k.Established := by
  unfold tntIoConnectWait at h
  split at h
  · exact absurd h (by simp [Connecting.system])
  · obtain ⟨⟨result, s₁⟩, hpoll, h⟩ := Option.bind_eq_some_iff.mp h
    simp only at h
    split_ifs at h with hresult
    · exact absurd (congrArg Prod.fst (Option.some.inj h)) hresult
    · obtain rfl := not_not.mp hresult
      obtain ⟨e, hconn⟩ := tntIoConnectPoll_ok hpoll
      split at h
      · exact absurd h (by simp [Connecting.system, pure])
      · rename_i opt k hopt
        obtain ⟨rfl, hover⟩ := Kernel.callGetsockopt_spec hconn hopt
        split_ifs at h with hzero
        · exact absurd h (by simp [pure])
        · obtain ⟨-, rfl⟩ := Prod.mk.inj (Option.some.inj h)
          rw [not_not.mp hzero] at hover
          exact hover

/-! ## §5 — what the course depends on.

On the kernel and the time limit.  The stream's error number is written and never read. -/

/-- Two states that differ in the error number at most. -/
structure SameCourse (s s' : Connecting) : Prop where
  tmoutConnect : s.tmoutConnect = s'.tmoutConnect
  k : s.k = s'.k

/-- Two results that differ in the error number at most. -/
def SameResult : Option (TntError × Connecting) → Option (TntError × Connecting) → Prop
  | none, none => True
  | some (result, s), some (result', s') => result = result' ∧ SameCourse s s'
  | _, _ => False

/-- Setting the mode, ... -/
theorem tntIoNonblock_course {s s' : Connecting} (h : SameCourse s s') (set : Bool) :
    SameResult (some (tntIoNonblock s set)) (some (tntIoNonblock s' set)) := by
  have htmout := h.tmoutConnect
  unfold tntIoNonblock
  rw [h.k]
  split
  · exact ⟨rfl, htmout, rfl⟩
  · split
    · exact ⟨rfl, htmout, rfl⟩
    · exact ⟨rfl, htmout, rfl⟩

/-- ... waiting, ... -/
theorem tntIoConnectPoll_course (timeout : Int) (start : Timeval) (fuel : Nat) {s s' : Connecting}
    (h : SameCourse s s') : SameResult (tntIoConnectPoll timeout start fuel s)
      (tntIoConnectPoll timeout start fuel s') := by
  induction fuel generalizing s s' with
  | zero => trivial
  | succ fuel ih =>
    have htmout := h.tmoutConnect
    rw [tntIoConnectPoll, tntIoConnectPoll, h.k]
    split
    · split_ifs
      · split
        · exact ⟨rfl, htmout, rfl⟩
        · split_ifs
          · exact ⟨rfl, htmout, rfl⟩
          · exact ih ⟨htmout, rfl⟩
      · exact ⟨rfl, htmout, rfl⟩
    · exact ⟨rfl, htmout, rfl⟩
    · exact ⟨rfl, htmout, rfl⟩

/-- (two attempts that agree, case by case) -/
theorem SameResult.cases {r r' : Option (TntError × Connecting)} (h : SameResult r r') :
    (r = none ∧ r' = none) ∨ ∃ result s s', r = some (result, s) ∧ r' = some (result, s') ∧
      SameCourse s s' := by
  match r, r', h with
  | none, none, _ => exact .inl ⟨rfl, rfl⟩
  | some (result, s), some (_, s'), ⟨rfl, hs⟩ => exact .inr ⟨result, s, s', rfl, rfl, hs⟩

/-- ... and waiting again, on two kernels that differ in the error number only. -/
theorem tntIoConnectWait_course (fuel : Nat) {s s' : Connecting} (h : SameCourse s s') :
    SameResult (tntIoConnectWait fuel s) (tntIoConnectWait fuel s') := by
  have htmout := h.tmoutConnect
  unfold tntIoConnectWait
  rw [h.k]
  split
  · exact ⟨rfl, htmout, rfl⟩
  · rename_i start k _
    have hsame : SameCourse { s with k := k } { s' with k := k } := ⟨htmout, rfl⟩
    have hpoll := tntIoConnectPoll_course (longToInt (timevalToMsec s'.tmoutConnect)) start fuel hsame
    simp only [htmout] at hpoll
    rcases hpoll.cases with ⟨hr, hr'⟩ | ⟨result, s₁, s₁', hr, hr', h₁⟩
    · simp only [htmout, hr, hr', Option.bind_eq_bind, Option.bind_none]
      trivial
    · have htmout₁ := h₁.tmoutConnect
      simp only [htmout, hr, hr', Option.bind_eq_bind, Option.bind_some, h₁.k]
      split_ifs
      · exact ⟨rfl, h₁⟩
      · split
        · exact ⟨rfl, htmout₁, rfl⟩
        · split_ifs
          · exact ⟨rfl, htmout₁, rfl⟩
          · exact ⟨rfl, htmout₁, rfl⟩

/-- **The course of a connection attempt does not depend on an old error number.** -/
theorem tntIoConnectDo_course (fuel : Nat) {s s' : Connecting} (h : SameCourse s s') :
    SameResult (tntIoConnectDo fuel s) (tntIoConnectDo fuel s') := by
  have hmode := tntIoNonblock_course h true
  unfold tntIoConnectDo
  rcases hmode.cases with ⟨hr, -⟩ | ⟨result, s₁, s₁', hr, hr', h₁⟩
  · exact absurd hr (by simp)
  · have htmout := h₁.tmoutConnect
    simp only [Option.some.inj hr, Option.some.inj hr', h₁.k]
    split_ifs
    · exact ⟨rfl, h₁⟩
    · split
      · exact ⟨rfl, htmout, rfl⟩
      · rename_i k _
        split_ifs
        · have hsame : SameCourse { s₁ with k := k } { s₁' with k := k } := ⟨htmout, rfl⟩
          have hwait := tntIoConnectWait_course fuel hsame
          rcases hwait.cases with ⟨hr, hr'⟩ | ⟨result, s₂, s₂', hr, hr', h₂⟩
          · simp only [hr, hr', Option.bind_eq_bind, Option.bind_none]
            trivial
          · simp only [hr, hr', Option.bind_eq_bind, Option.bind_some]
            split_ifs
            · exact ⟨rfl, h₂⟩
            · exact tntIoNonblock_course h₂ false
        · exact ⟨rfl, htmout, rfl⟩

/-! ## §6 — the connection.

Both directions: a success that came through the wait is one of a connection in blocking mode, and
one that did not is not. -/

/-- Making the socket non-blocking works, and `connect` succeeds without waiting. -/
def Connecting.AtOnce (s : Connecting) : Prop :=
  (s.k.fcntl s.k.clock = .ok () ∧ s.k.fcntl (s.k.clock + 1) = .ok ()) ∧
    s.k.connect (s.k.clock + 2) = .ok ()

/-- What the function is for. -/
def HandsOver (s : Connecting) : Prop :=
  ∀ fuel s', tntIoConnectDo fuel s = some (.ok, s') → s'.k.Established ∧ s'.k.Blocking

/-- A connection that is there at once is handed over as it is. -/
theorem tntIoConnectDo_atOnce {s : Connecting} (h : s.AtOnce) (fuel : Nat) :
    ∃ s', tntIoConnectDo fuel s = some (.ok, s') ∧ s'.k.Established ∧ ¬ s'.k.Blocking := by
  obtain ⟨⟨hget, hset⟩, hconn⟩ := h
  have hdo : tntIoConnectDo fuel s = some (.ok, { s with k := { s.k with
      clock := s.k.clock + 3, flags := s.k.flags ||| oNonblock, conn := .over 0 } }) := by
    simp only [tntIoConnectDo, tntIoNonblock, Kernel.callGetfl, Kernel.callSetfl,
      Kernel.callConnect, Kernel.tick, hget, hset, hconn]
    rfl
  exact ⟨_, hdo, rfl, not_blocking_of_set s.k.flags⟩

/-- A connection that is there at once. -/
theorem Kernel.callConnect_ok {k k' : Kernel} (h : k.callConnect = (some (), k')) :
    k.connect k.clock = .ok () := by
  unfold Kernel.callConnect at h
  split at h
  · exact absurd (congrArg Prod.fst h) (by simp)
  · assumption

/-- The two ways to a success: at once, or through the wait and the last step. -/
theorem tntIoConnectDo_cases {fuel : Nat} {s s' : Connecting}
    (h : tntIoConnectDo fuel s = some (.ok, s')) :
    s.AtOnce ∨ ∃ s₁ s₂, tntIoConnectWait fuel s₁ = some (.ok, s₂) ∧
      tntIoNonblock s₂ false = (.ok, s') := by
  unfold tntIoConnectDo at h
  obtain ⟨result, s₁, hmode⟩ : ∃ result s₁, tntIoNonblock s true = (result, s₁) := ⟨_, _, rfl⟩
  simp only [hmode] at h
  split_ifs at h with hresult
  · exact absurd (congrArg Prod.fst (Option.some.inj h)) hresult
  · obtain rfl := not_not.mp hresult
    obtain ⟨hfcntl, hs₁⟩ := tntIoNonblock_ok hmode
    split at h
    · rename_i k hconn
      refine .inl ⟨hfcntl, ?_⟩
      have hcall := Kernel.callConnect_ok hconn
      rw [hs₁] at hcall
      exact hcall
    · split_ifs at h
      · obtain ⟨⟨result, s₂⟩, hwait, h⟩ := Option.bind_eq_some_iff.mp h
        simp only at h
        split_ifs at h with hdone
        · exact absurd (congrArg Prod.fst (Option.some.inj h)) hdone
        · obtain rfl := not_not.mp hdone
          exact .inr ⟨_, s₂, hwait, Option.some.inj h⟩
      · exact absurd h (by simp [Connecting.system, pure])

/-- **A success is an established connection in blocking mode, exactly if `connect` does not succeed
at once**: however often waiting is interrupted, and wherever it fails.  The socket is made
non-blocking before `connect`, and blocking again only behind the wait.  A `connect` that has
succeeded by itself returns in between.  The loop of the wait is followed with the time that is
left, so that an interruption at any point counts. -/
theorem tntIoConnectDo_blocking_iff (s : Connecting) : HandsOver s ↔ ¬ s.AtOnce := by
  constructor
  · intro h hatOnce
    obtain ⟨s', hdo, -, hblocking⟩ := tntIoConnectDo_atOnce hatOnce 0
    exact hblocking (h 0 s' hdo).2
  · intro hno fuel s' h
    rcases tntIoConnectDo_cases h with hatOnce | ⟨s₁, s₂, hwait, hmode⟩
    · exact absurd hatOnce hno
    · exact tntIoNonblock_clear hmode (tntIoConnectWait_ok hwait)

/-- A server on the same host: every call succeeds. -/
def localServer : Connecting where
  tmoutConnect := ⟨16, 0⟩
  errno := 0
  k :=
    { flags := 2, conn := .idle, errno := 0, clock := 0
      fcntl := fun _ => .ok ()
      connect := fun _ => .ok ()
      poll := fun _ => .ok (some 0)
      gettimeofday := fun _ => .ok ⟨0, 0⟩
      getsockopt := fun _ => .ok () }

/-- The socket is handed over non-blocking. -/
theorem tntIoConnectDo_local :
    ¬ HandsOver localServer ∧ ∃ s', tntIoConnectDo 0 localServer = some (.ok, s') ∧
      s'.k.conn = .over 0 ∧ s'.k.flags = 0x802 := by
  refine ⟨?_, _, rfl, rfl, rfl⟩
  intro h
  exact absurd (h 0 _ rfl).2 (by decide)

end TarantoolC.Io
