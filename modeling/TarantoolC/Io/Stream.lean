/-
# TarantoolC.Io.Stream — the state of a network stream, and the TRANSPORT below it.

`struct tnt_stream_net` has two buffers (`struct tnt_iob`), the error of the last call, and a socket
or callbacks.  What lies behind the socket is the transport: it holds the bytes that are still to be
received and the bytes it has accepted, and at each of its calls it decides, by an oracle, whether
it fails or how much it moves.  `recv`, `send` and `writev` are each ONE such call; the retries on
`EINTR` are part of it.

The buffers never look at a byte, so everything here is generic in what a byte is.  With `UInt8` it
is the code; with bytes that carry their place in the stream, a statement about the order of bytes
is a statement about places.

The oracle is a function from the number of the call to what happens in it (`Move`): fail with an
error number, or take part, with at least one byte moved where any can be.  A transport that is
RELIABLE never fails; it may still cut what it carries into any portions.  Time does not occur; a
timeout is one of the failures.

What is said of a call is said in terms of what the stream still has: `unread` and `front` for the
two buffers, `toCome` for all that is still to be received, `log` for all that was handed to the
transport.  The block of a buffer keeps old bytes behind these, which is where the failures of
receiving and sending come from.
-/
import Mathlib

namespace TarantoolC.Io

/-! ## §1 — the transport. -/

/-- What the transport does at a call: it fails with an error number, or it moves `n + 1` bytes, or
as many as there are if these are fewer. -/
inductive Move where
  | fail (errno : Int)
  | take (n : Nat)
  deriving Repr, DecidableEq

/-- Everything below the stream. -/
structure Transport (α : Type) where
  incoming : List α
  accepted : List α
  move : Nat → Move
  /-- How many calls have been made. -/
  clock : Nat
  errno : Int
  iovmax : Nat

namespace Transport

variable {α : Type}

/-- `recv(fd, buf, n, 0)`: the bytes stored; none for a result of 0 or -1. -/
def recv (t : Transport α) (n : Nat) : List α × Transport α :=
  match t.move t.clock with
  | .fail e => ([], { t with clock := t.clock + 1, errno := e })
  | .take k =>
    let r := min (k + 1) n
    (t.incoming.take r, { t with clock := t.clock + 1, incoming := t.incoming.drop r })

/-- `send(fd, buf, size, 0)`: the number of bytes taken; 0 for a result of 0 or -1. -/
def send (t : Transport α) (buf : List α) : Nat × Transport α :=
  match t.move t.clock with
  | .fail e => (0, { t with clock := t.clock + 1, errno := e })
  | .take k =>
    let r := min (k + 1) buf.length
    (r, { t with clock := t.clock + 1, accepted := t.accepted ++ buf.take r })

/-- `writev(fd, iov, count)`. -/
def writev (t : Transport α) (iov : List (List α)) : Nat × Transport α := t.send iov.flatten

/-- The call number `n` fails. -/
def Fails (t : Transport α) (n : Nat) : Prop := ∃ e, t.move n = .fail e

/-- No call fails. -/
def Reliable (t : Transport α) : Prop := ∀ n, ¬ t.Fails n

/-- `t'` is `t` after some receiving. -/
structure AfterRecv (t t' : Transport α) : Prop where
  move : t'.move = t.move
  accepted : t'.accepted = t.accepted
  iovmax : t'.iovmax = t.iovmax
  clock : t.clock ≤ t'.clock

/-- Receiving nothing, ... -/
theorem AfterRecv.refl (t : Transport α) : AfterRecv t t := ⟨rfl, rfl, rfl, le_rfl⟩

/-- ... and receiving twice. -/
theorem AfterRecv.trans {t t' t'' : Transport α} (h : AfterRecv t t') (h' : AfterRecv t' t'') :
    AfterRecv t t'' :=
  ⟨h'.move.trans h.move, h'.accepted.trans h.accepted, h'.iovmax.trans h.iovmax,
    Nat.le_trans h.clock h'.clock⟩

/-- Between `t` and `t'` a call failed. -/
def FailedWithin (t t' : Transport α) : Prop := ∃ n, t.clock ≤ n ∧ n < t'.clock ∧ t.Fails n

/-- A failure in a later part is one in the whole. -/
theorem FailedWithin.of_later {t t' t'' : Transport α} (h : AfterRecv t t')
    (hf : FailedWithin t' t'') : FailedWithin t t'' := by
  obtain ⟨n, hn, hlt, e, he⟩ := hf
  have hc := h.clock
  exact ⟨n, Nat.le_trans hc hn, hlt, e, by rw [← h.move]; exact he⟩

/-- A reliable transport has none. -/
theorem Reliable.not_failedWithin {t t' : Transport α} (h : t.Reliable) : ¬ FailedWithin t t' := by
  rintro ⟨n, -, -, hf⟩
  exact h n hf

/-- A receive moves a front part of what is to come; it moves nothing only if it fails or there is
nothing. -/
theorem recv_spec {t t' : Transport α} {n : Nat} {bs : List α} (h : t.recv n = (bs, t')) :
    AfterRecv t t' ∧ t.incoming = bs ++ t'.incoming ∧ bs.length ≤ n ∧
      (bs = [] → 0 < n → FailedWithin t t' ∨ t'.incoming = []) := by
  unfold recv at h
  cases hm : t.move t.clock with
  | fail e =>
    rw [hm] at h
    obtain ⟨rfl, rfl⟩ := Prod.mk.inj h
    refine ⟨⟨rfl, rfl, rfl, Nat.le_succ _⟩, rfl, Nat.zero_le _, ?_⟩
    intro _ _
    exact Or.inl ⟨t.clock, le_rfl, Nat.lt_succ_self _, e, hm⟩
  | take k =>
    rw [hm] at h
    obtain ⟨rfl, rfl⟩ := Prod.mk.inj h
    refine ⟨⟨rfl, rfl, rfl, Nat.le_succ _⟩, (List.take_append_drop _ _).symm, ?_, ?_⟩
    · rw [List.length_take]
      omega
    · intro hnil hn
      right
      -- nothing was taken although at least one byte was wanted
      have hin : t.incoming = [] := by
        rcases List.take_eq_nil_iff.mp hnil with h0 | h0
        · omega
        · exact h0
      simp only [hin, List.drop_nil]

/-- A send takes a front part of what it is offered, and nothing only if it fails. -/
theorem send_spec {t t' : Transport α} {buf : List α} {r : Nat} (h : t.send buf = (r, t')) :
    t'.move = t.move ∧ t'.incoming = t.incoming ∧ t'.iovmax = t.iovmax ∧ t'.clock = t.clock + 1 ∧
      t'.accepted = t.accepted ++ buf.take r ∧ r ≤ buf.length ∧
      (r = 0 → buf ≠ [] → t.Fails t.clock) ∧ (t.Fails t.clock → r = 0) := by
  unfold send at h
  cases hm : t.move t.clock with
  | fail e =>
    rw [hm] at h
    obtain ⟨rfl, rfl⟩ := Prod.mk.inj h
    refine ⟨rfl, rfl, rfl, rfl, by simp, Nat.zero_le _, ?_, ?_⟩
    · intro _ _
      exact ⟨e, hm⟩
    · intro _
      rfl
  | take k =>
    rw [hm] at h
    obtain ⟨rfl, rfl⟩ := Prod.mk.inj h
    refine ⟨rfl, rfl, rfl, rfl, rfl, Nat.min_le_right _ _, ?_, ?_⟩
    · intro h0 hne
      have hpos : 0 < buf.length := List.length_pos_iff.mpr hne
      omega
    · rintro ⟨e, he⟩
      rw [hm] at he
      exact absurd he (by simp)

end Transport

/-! ## §2 — the stream. -/

/-- `enum tnt_error`. -/
inductive TntError where
  | ok | fail | memory | system | big | size | resolve | tmout | badval | login
  deriving Repr, DecidableEq

/-- `struct tnt_iob`: a block of `size` bytes, or `NULL`.  `txv` says whether the vectored callback
is installed. -/
structure Iob (α : Type) where
  buf : Option (List α)
  off : Nat
  top : Nat
  size : Nat
  txv : Bool

/-- `struct tnt_stream_net`. -/
structure StreamNet (α : Type) where
  sbuf : Iob α
  rbuf : Iob α
  error : TntError
  errno : Int
  io : Transport α

variable {α : Type}

/-- `tnt_iob_init`, with the block the allocator gave and cleared. -/
def tntIobInit (block : List α) (txv : Bool) : Iob α where
  buf := if block.length > 0 then some block else none
  off := 0
  top := 0
  size := block.length
  txv := txv

/-- `tnt_iob_clear`. -/
def tntIobClear (b : Iob α) : Iob α := { b with top := 0, off := 0 }

/-- The buffer is a block of its size; no block is a size of 0. -/
def Iob.Sized (b : Iob α) : Prop :=
  match b.buf with
  | none => b.size = 0
  | some block => block.length = b.size ∧ 0 < b.size

/-- `rbuf.off <= rbuf.top <= rbuf.size`, on a sized buffer. -/
structure Iob.WF (b : Iob α) : Prop where
  sized : b.Sized
  off_le : b.off ≤ b.top
  top_le : b.top ≤ b.size

/-- The bytes received into a buffer and not handed out. -/
def Iob.unread (b : Iob α) : List α := ((b.buf.getD []).drop b.off).take (b.top - b.off)

/-- The bytes below the offset: in a receive buffer those handed out, in a send buffer those put in
and not sent. -/
def Iob.front (b : Iob α) : List α := (b.buf.getD []).take b.off

/-- The block is as long as the size says, ... -/
theorem Iob.Sized.length_getD {b : Iob α} (h : b.Sized) : (b.buf.getD []).length = b.size := by
  unfold Iob.Sized at h
  cases hb : b.buf with
  | none =>
    rw [hb] at h
    exact h.symm
  | some block =>
    rw [hb] at h
    exact h.1

/-- ... its first `top` bytes are what was handed out and what was not, ... -/
theorem Iob.front_append_unread {b : Iob α} (h : b.off ≤ b.top) :
    b.front ++ b.unread = (b.buf.getD []).take b.top := by
  have hsum : b.top = b.off + (b.top - b.off) := by omega
  rw [Iob.front, Iob.unread, hsum, List.take_add, ← hsum]

/-- ... and so many are unread. -/
theorem Iob.WF.length_unread {b : Iob α} (h : b.WF) : b.unread.length = b.top - b.off := by
  have hlen := h.sized.length_getD
  have htop := h.top_le
  rw [Iob.unread, List.length_take, List.length_drop, hlen]
  omega

/-- A new buffer is in order, with nothing to hand out and nothing to send. -/
theorem tntIobInit_wf (block : List α) (txv : Bool) : (tntIobInit block txv).WF := by
  refine ⟨?_, le_rfl, Nat.zero_le _⟩
  unfold Iob.Sized tntIobInit
  by_cases h : block.length > 0
  · rw [if_pos h]
    exact ⟨rfl, h⟩
  · rw [if_neg h]
    show block.length = 0
    omega

@[simp] theorem tntIobInit_unread (block : List α) (txv : Bool) :
    (tntIobInit block txv).unread = [] := by
  simp [Iob.unread, tntIobInit]

@[simp] theorem tntIobInit_front (block : List α) (txv : Bool) :
    (tntIobInit block txv).front = [] := by
  simp [Iob.front, tntIobInit]

/-- `s->error = TNT_ESYSTEM; s->errno_ = errno;`. -/
def StreamNet.failSystem (s : StreamNet α) : StreamNet α :=
  { s with error := .system, errno := s.io.errno }

/-- A connected stream on which nothing has been done yet, with a block for each buffer (an empty
block for an unbuffered direction). -/
def StreamNet.fresh (sblock rblock incoming : List α) (txv : Bool) (iovmax : Nat)
    (move : Nat → Move) : StreamNet α where
  sbuf := tntIobInit sblock txv
  rbuf := tntIobInit rblock false
  error := .ok
  errno := 0
  io := { incoming := incoming, accepted := [], move := move, clock := 0, errno := 0,
          iovmax := iovmax }

end TarantoolC.Io
