/-
# TarantoolC.Io.Send — sending (`tnt_io_send`, `tnt_io_sendv`, `tnt_io_flush` of `tnt/tnt_io.c`).

A send on a buffered stream puts its payload into the send buffer, after sending the buffer if there
is no room; a send on an unbuffered stream goes to the transport at once.  What has been written so
far is the bytes the transport has accepted and, behind them, the front of the buffer.

Without failures this is exactly the payloads, in call order (`tntIoSend_transparent`).

With failures it is not.  The buffer is only emptied after the transport has taken ALL of it, so
what it took before it failed is sent a second time by the next attempt;
`sendCalls_no_duplication_iff` says exactly when that happens.

## How a send is followed.

`Sent s bs s'` is the frame of every raw send: the transport has accepted `bs` more, its clock has
moved on, and the buffers are as they were.  `takes` is what the transport takes of a number of
bytes offered in one go, in closed form, so that the loops of `tnt_io_send_raw` and
`tnt_io_sendv_raw` can be compared although one walks a pointer and the other a vector.  A vector is
moved on in place, entries that are done being passed over (`iovAdvance`).

## Runs.

`SendCall` is a call with its state before and after.  Without failures the invariant of a run is
one equation: accepted bytes and buffered bytes are the payloads written (`sendCall_reliable`, with
the frame `SendKept`).  With failures `SendStep` is what one call does to the bytes.  A call BREAKS
OFF if the transport takes some of the buffer it is offered and then fails; from there on the stream
is TORN (`Torn`), and the first byte that is accepted is one that was accepted before.  The
equivalence `sendCalls_no_duplication_iff` is proved for numbered bytes, as for receiving: in order
and none twice is being a sublist.

The sizes are natural numbers; the payload of one call is at most the buffer for a buffered stream
(a larger one is refused by the code), and anything for an unbuffered one.
-/
import TarantoolC.Io.Stream

namespace TarantoolC.Io

variable {α : Type}

/-! ## §1 — the code.

The functions as the source has them, loops and all.  A vector is a list of entries, and
`iovAdvance` is the loop that moves it on behind a partial write: it skips what is done and shortens
the first entry that is not. -/

/-- The loop of `tnt_io_send_raw`.  `r <= 0` is a failure, so a call that takes no byte is one, too.
-/
def sendRawLoop (buf : List α) (all : Bool) : Nat → StreamNet α → Nat → Option (Int × StreamNet α)
  | 0, _, _ => none
  | fuel + 1, s, off =>
    let (r, io) := s.io.send (buf.drop off)
    let s := { s with io := io }
    if r = 0 then some (-1, s.failSystem)
    else
      let off := off + r
      if off ≠ buf.length ∧ all then sendRawLoop buf all fuel s off else some (off, s)

/-- `tnt_io_send_raw`.  `none` would be a loop that does not end. -/
def tntIoSendRaw (s : StreamNet α) (buf : List α) (all : Bool) : Option (Int × StreamNet α) :=
  sendRawLoop buf all (buf.length + 1) s 0

/-- The inner loop of `tnt_io_sendv_raw`: the entries left after `r` bytes have been taken. -/
def iovAdvance : List (List α) → Nat → List (List α)
  | [], _ => []
  | v :: iov, r => if v.length > r then v.drop r :: iov else iovAdvance iov (r - v.length)

/-- The loop of `tnt_io_sendv_raw`.  A callback is offered no more entries than `getiovmax` allows,
while `writev` is given all of them. -/
def sendvRawLoop (all : Bool) :
    Nat → StreamNet α → List (List α) → Nat → Option (Int × StreamNet α)
  | 0, _, _, _ => none
  | fuel + 1, s, iov, total =>
    if iov.length > 0 then
      let offered := if s.sbuf.txv then iov.take (min iov.length s.io.iovmax) else iov
      let (r, io) := s.io.writev offered
      let s := { s with io := io }
      if r = 0 then some (-1, s.failSystem)
      else
        let total := total + r
        if !all then some (total, s) else sendvRawLoop all fuel s (iovAdvance iov r) total
    else some (total, s)

/-- `tnt_io_sendv_raw`. -/
def tntIoSendvRaw (s : StreamNet α) (iov : List (List α)) (all : Bool) :
    Option (Int × StreamNet α) :=
  sendvRawLoop all (iov.flatten.length + 1) s iov 0

/-- `tnt_io_flush`. -/
def tntIoFlush (s : StreamNet α) : Option (Int × StreamNet α) :=
  if s.sbuf.off = 0 then some (0, s)
  else do
    let (rc, s) ← tntIoSendRaw s s.sbuf.front true
    if rc = -1 then some (-1, s) else some (rc, { s with sbuf.off := 0 })

/-- `memcpy(sbuf.buf + off, data, …)`; `none` if it does not fit into the block. -/
def putAt (block : List α) (off : Nat) (data : List α) : Option (List α) :=
  if off + data.length ≤ block.length then
    some (block.take off ++ data ++ block.drop (off + data.length))
  else none

/-- `tnt_io_send`.  A payload that does not fit into the empty buffer is refused.  One that does not
fit behind what is buffered waits until the buffer has gone out. -/
def tntIoSend (s : StreamNet α) (buf : List α) : Option (Int × StreamNet α) :=
  match s.sbuf.buf with
  | none => tntIoSendRaw s buf true
  | some block =>
    if buf.length > s.sbuf.size then some (-1, { s with error := .big })
    else if s.sbuf.off + buf.length ≤ s.sbuf.size then do
      let block ← putAt block s.sbuf.off buf
      some (buf.length,
        { s with sbuf.buf := some block, sbuf.off := s.sbuf.off + buf.length })
    else do
      let (r, s) ← tntIoSendRaw s s.sbuf.front true
      if r = -1 then some (-1, s)
      else
        let block ← putAt block 0 buf
        some (buf.length, { s with sbuf.buf := some block, sbuf.off := buf.length })

/-- `tnt_io_sendv_put`: the block and `sbuf.off` after it. -/
def tntIoSendvPut : List α → Nat → List (List α) → Option (List α × Nat)
  | block, off, [] => some (block, off)
  | block, off, v :: iov => do
    let block ← putAt block off v
    tntIoSendvPut block (off + v.length) iov

/-- `tnt_io_sendv`.  It makes the same decisions, by the sum of the lengths. -/
def tntIoSendv (s : StreamNet α) (iov : List (List α)) : Option (Int × StreamNet α) :=
  match s.sbuf.buf with
  | none => tntIoSendvRaw s iov true
  | some block =>
    let size := (iov.map List.length).sum
    if size > s.sbuf.size then some (-1, { s with error := .big })
    else if s.sbuf.off + size ≤ s.sbuf.size then do
      let (block, off) ← tntIoSendvPut block s.sbuf.off iov
      some (size, { s with sbuf.buf := some block, sbuf.off := off })
    else do
      let (r, s) ← tntIoSendRaw s s.sbuf.front true
      if r = -1 then some (-1, s)
      else
        let (block, off) ← tntIoSendvPut block 0 iov
        some (size, { s with sbuf.buf := some block, sbuf.off := off })

/-! ## §2 — the raw loops.

What a transport takes is asked of it turn by turn, and it may take any number of bytes or fail.
Over a whole string this comes to a number, `taken`; the two loops are shown to make the same of it. -/

/-- How many of `n` offered bytes the transport takes, from call number `clock` on, before it fails
or has them all. -/
def taken (move : Nat → Move) : Nat → Nat → Nat → Nat
  | 0, _, _ => 0
  | fuel + 1, clock, n =>
    match move clock with
    | .fail _ => 0
    | .take k => if k + 1 < n then (k + 1) + taken move fuel (clock + 1) (n - (k + 1)) else n

/-- `s'` is `s` after the transport has taken `bs`.  The number of the call is not in it, since it
depends on the cuts. -/
structure Sent (s : StreamNet α) (bs : List α) (s' : StreamNet α) : Prop where
  sbuf : s'.sbuf = s.sbuf
  rbuf : s'.rbuf = s.rbuf
  move : s'.io.move = s.io.move
  incoming : s'.io.incoming = s.io.incoming
  iovmax : s'.io.iovmax = s.io.iovmax
  accepted : s'.io.accepted = s.io.accepted ++ bs

/-- Nothing sent, ... -/
theorem Sent.refl (s : StreamNet α) : Sent s [] s :=
  ⟨rfl, rfl, rfl, rfl, rfl, (List.append_nil _).symm⟩

/-- ... and one thing behind the other. -/
theorem Sent.trans {s s' s'' : StreamNet α} {xs ys : List α} (h : Sent s xs s')
    (h' : Sent s' ys s'') : Sent s (xs ++ ys) s'' :=
  ⟨h'.sbuf.trans h.sbuf, h'.rbuf.trans h.rbuf, h'.move.trans h.move,
    h'.incoming.trans h.incoming, h'.iovmax.trans h.iovmax,
    by rw [h'.accepted, h.accepted, List.append_assoc]⟩

/-- The raw loop sends exactly what the transport takes before it fails.  The fuel is more than the
bytes that are left, so it does not run out. -/
theorem sendRawLoop_spec {buf : List α} {fuel off : Nat} {s : StreamNet α}
    (hoff : off < buf.length) (hfuel : buf.length - off < fuel) :
    ∃ rc s', sendRawLoop buf true fuel s off = some (rc, s') ∧
      Sent s ((buf.drop off).take (taken s.io.move fuel s.io.clock (buf.length - off))) s' ∧
      taken s.io.move fuel s.io.clock (buf.length - off) ≤ buf.length - off ∧
      rc = if taken s.io.move fuel s.io.clock (buf.length - off) = buf.length - off
        then (buf.length : Int) else -1 := by
  induction fuel generalizing s off with
  | zero => omega
  | succ fuel ih =>
    cases hm : s.io.move s.io.clock with
    | fail e =>
      -- the loop ends with -1, whatever it has sent before
      simp only [sendRawLoop, Transport.send, taken, hm, if_true]
      have hne : ¬ (0 = buf.length - off) := by omega
      refine ⟨_, _, rfl, ⟨rfl, rfl, rfl, rfl, rfl, ?_⟩, Nat.zero_le _, by rw [if_neg hne]⟩
      show s.io.accepted = _
      rw [List.take_zero, List.append_nil]
    | take k =>
      have hlen : (buf.drop off).length = buf.length - off := List.length_drop
      by_cases hk : k + 1 < buf.length - off
      · -- a part is taken, and the loop goes on
        have hr : min (k + 1) (buf.drop off).length = k + 1 := by omega
        have hstep : off + (k + 1) ≠ buf.length := by omega
        simp only [sendRawLoop, Transport.send, taken, hm, hr, if_pos hk, Nat.succ_ne_zero, if_false,
          ne_eq, hstep, not_false_eq_true, and_self, if_true]
        set s₁ : StreamNet α := { s with io := { s.io with
          clock := s.io.clock + 1
          accepted := s.io.accepted ++ (buf.drop off).take (k + 1) } } with hs₁
        have hrest : buf.length - (off + (k + 1)) = buf.length - off - (k + 1) := by omega
        obtain ⟨rc, s', hloop, hsent, hle, hrc⟩ := @ih (off + (k + 1)) s₁ (by omega) (by omega)
        rw [hrest] at hsent hle hrc
        refine ⟨rc, s', hloop, ?_, ?_, ?_⟩
        · have hone : Sent s ((buf.drop off).take (k + 1)) s₁ := ⟨rfl, rfl, rfl, rfl, rfl, rfl⟩
          have hboth := hone.trans hsent
          rwa [← List.drop_drop, ← List.take_add] at hboth
        · have hle' : taken s.io.move fuel (s.io.clock + 1) (buf.length - off - (k + 1)) ≤
              buf.length - off - (k + 1) := hle
          omega
        · rw [hrc]
          show (if taken s.io.move fuel (s.io.clock + 1) _ = _ then _ else _) = _
          by_cases hall : taken s.io.move fuel (s.io.clock + 1) (buf.length - off - (k + 1)) =
              buf.length - off - (k + 1)
          · rw [if_pos hall, if_pos (by omega)]
          · rw [if_neg hall, if_neg (by omega)]
      · -- the rest is taken
        have hr : min (k + 1) (buf.drop off).length = buf.length - off := by omega
        have hdone : off + (buf.length - off) = buf.length := by omega
        have hpos : buf.length - off ≠ 0 := by omega
        simp only [sendRawLoop, Transport.send, taken, hm, hr, if_neg hk, hpos, if_false, hdone, ne_eq,
          not_true_eq_false, false_and, if_true]
        exact ⟨_, _, rfl, ⟨rfl, rfl, rfl, rfl, rfl, rfl⟩, le_rfl, rfl⟩

/-- How many of `n` bytes the transport of `s` takes before it fails. -/
def StreamNet.takes (s : StreamNet α) (n : Nat) : Nat := taken s.io.move (n + 1) s.io.clock n

/-- **`tnt_io_send_raw`** of a whole string.  It ends with all of it accepted, or with a failure and
what was accepted until then.  The induction is on the bytes that are left: each turn takes at least
one, or fails. -/
theorem tntIoSendRaw_spec (s : StreamNet α) {buf : List α} (hne : buf ≠ []) :
    ∃ rc s', tntIoSendRaw s buf true = some (rc, s') ∧
      Sent s (buf.take (s.takes buf.length)) s' ∧ s.takes buf.length ≤ buf.length ∧
      rc = if s.takes buf.length = buf.length then (buf.length : Int) else -1 :=
  sendRawLoop_spec (List.length_pos_iff.mpr hne) (by simp)

/-- A transport that does not fail takes it all.  By induction on the turns, each of which takes at
least one byte. -/
theorem taken_reliable {move : Nat → Move} (hmove : ∀ n e, move n ≠ .fail e) {fuel clock n : Nat}
    (hfuel : n < fuel) : taken move fuel clock n = n := by
  induction fuel generalizing clock n with
  | zero => omega
  | succ fuel ih =>
    cases hm : move clock with
    | fail e => exact absurd hm (hmove clock e)
    | take k =>
      simp only [taken, hm]
      split_ifs with hk
      · rw [ih (by omega)]
        omega
      · rfl

/-- The same for a stream. -/
theorem StreamNet.takes_reliable {s : StreamNet α} (hio : s.io.Reliable) (n : Nat) :
    s.takes n = n :=
  taken_reliable (fun n e h => hio n ⟨e, h⟩) (Nat.lt_succ_self n)

/-- Sending leaves a reliable transport reliable. -/
theorem Sent.reliable {s s' : StreamNet α} {bs : List α} (h : Sent s bs s') (hio : s.io.Reliable) :
    s'.io.Reliable := by
  rintro n ⟨e, he⟩
  exact hio n ⟨e, by rw [← h.move]; exact he⟩

/-- Moving a vector on drops bytes from its front, ... -/
theorem iovAdvance_flatten (iov : List (List α)) (r : Nat) :
    (iovAdvance iov r).flatten = iov.flatten.drop r := by
  induction iov generalizing r with
  | nil => simp [iovAdvance]
  | cons v iov ih =>
    unfold iovAdvance
    split_ifs with h
    · rw [List.flatten_cons, List.flatten_cons, List.drop_append_of_le_length (by omega)]
    · have hv : v.drop r = [] := List.drop_eq_nil_of_le (by omega)
      rw [ih, List.flatten_cons, List.drop_append, hv, List.nil_append]

/-- Entries of length 0 are never left alone: a count above 0 means bytes to send.  That is why the
loop may ask for the count and not for the bytes. -/
theorem iovAdvance_tight (iov : List (List α)) (r : Nat) :
    iovAdvance iov r = [] ∨ (iovAdvance iov r).flatten ≠ [] := by
  induction iov generalizing r with
  | nil => exact Or.inl rfl
  | cons v iov ih =>
    unfold iovAdvance
    split_ifs with h
    · right
      intro hnil
      have hdrop := (List.append_eq_nil_iff.mp (List.flatten_cons ▸ hnil)).1
      rw [List.drop_eq_nil_iff] at hdrop
      omega
    · exact ih _

/-- ... and makes it no longer.  So a vector within the limit stays within it. -/
theorem iovAdvance_length_le (iov : List (List α)) (r : Nat) :
    (iovAdvance iov r).length ≤ iov.length := by
  induction iov generalizing r with
  | nil => simp [iovAdvance]
  | cons v iov ih =>
    unfold iovAdvance
    split_ifs with h
    · simp
    · have := ih (r - v.length)
      simp only [List.length_cons]
      omega

/-- **`tnt_io_sendv_raw` terminates**, whatever the transport does: every turn of its loop fails or
leaves fewer bytes. -/
theorem sendvRawLoop_total {fuel : Nat} {s : StreamNet α} {iov : List (List α)} {total : Nat}
    (hfuel : iov.flatten.length < fuel) :
    ∃ rc s', sendvRawLoop true fuel s iov total = some (rc, s') := by
  induction fuel generalizing s iov total with
  | zero => omega
  | succ fuel ih =>
    unfold sendvRawLoop
    by_cases hiov : iov.length > 0
    · rw [if_pos hiov]
      set offered := if s.sbuf.txv then iov.take (min iov.length s.io.iovmax) else iov with hoffered
      -- at most the whole list is offered, so the kernel cannot take more than there is
      have hle : offered.flatten.length ≤ iov.flatten.length := by
        rw [hoffered]
        split_ifs with htxv
        · have hsplit : iov.flatten = (iov.take (min iov.length s.io.iovmax)).flatten ++
              (iov.drop (min iov.length s.io.iovmax)).flatten := by
            rw [← List.flatten_append, List.take_append_drop]
          rw [hsplit, List.length_append]
          exact Nat.le_add_right _ _
        · exact le_rfl
      rcases hw : s.io.writev offered with ⟨r, io⟩
      obtain ⟨-, -, -, -, -, hr, -, -⟩ := Transport.send_spec hw
      simp only [hw, Bool.not_true, Bool.false_eq_true, if_false]
      -- a result of zero ends the loop; any other one leaves strictly less to send
      by_cases hzero : r = 0
      · rw [if_pos hzero]
        exact ⟨_, _, rfl⟩
      · rw [if_neg hzero]
        apply ih
        rw [iovAdvance_flatten, List.length_drop]
        omega
    · rw [if_neg hiov]
      exact ⟨_, _, rfl⟩

/-- The whole function terminates. -/
theorem tntIoSendvRaw_total (s : StreamNet α) (iov : List (List α)) :
    ∃ rc s', tntIoSendvRaw s iov true = some (rc, s') :=
  sendvRawLoop_total (Nat.lt_succ_self _)

/-- On a reliable transport the loop sends the vector, by induction on the bytes left.  The vector
is within the limit, so all of it is offered in every turn. -/
theorem sendvRawLoop_reliable {fuel : Nat} {s : StreamNet α} {iov : List (List α)} {total : Nat}
    (hio : s.io.Reliable) (hcount : iov.length ≤ s.io.iovmax)
    (htight : iov = [] ∨ iov.flatten ≠ []) (hfuel : iov.flatten.length < fuel) :
    ∃ s', sendvRawLoop true fuel s iov total =
        some (((total + iov.flatten.length : Nat) : Int), s') ∧ Sent s iov.flatten s' := by
  induction fuel generalizing s iov total with
  | zero => omega
  | succ fuel ih =>
    unfold sendvRawLoop
    rcases htight with rfl | hne
    · exact ⟨s, rfl, .refl s⟩
    · have hpos : iov.length > 0 := by
        rcases Nat.eq_zero_or_pos iov.length with h | h
        · rw [List.length_eq_zero_iff.mp h] at hne
          exact absurd rfl hne
        · exact h
      have hoffered : (if s.sbuf.txv then iov.take (min iov.length s.io.iovmax) else iov) = iov := by
        rw [Nat.min_eq_left hcount, List.take_length, ite_self]
      rw [if_pos hpos, hoffered]
      rcases hw : s.io.writev iov with ⟨r, io⟩
      obtain ⟨hmove, hin, hmax, -, hacc, hr, hfail, -⟩ := Transport.send_spec hw
      have hr0 : ¬ r = 0 := fun h => hio _ (hfail h hne)
      simp only [hw, Bool.not_true, Bool.false_eq_true, if_false, if_neg hr0]
      have hone : Sent s (iov.flatten.take r) { s with io := io } :=
        ⟨rfl, rfl, hmove, hin, hmax, hacc⟩
      have hlen := iovAdvance_length_le iov r
      have hflat := iovAdvance_flatten iov r
      -- the rest of the loop, on what the transport has left
      obtain ⟨s', hloop, hsent⟩ := @ih { s with io := io } (iovAdvance iov r) (total + r)
        (hone.reliable hio) (by rw [hone.iovmax]; omega) (iovAdvance_tight iov r)
        (by rw [hflat, List.length_drop]; omega)
      refine ⟨s', ?_, ?_⟩
      · rw [hloop, hflat, List.length_drop]
        have hsum : total + r + (iov.flatten.length - r) = total + iov.flatten.length := by omega
        rw [hsum]
      · have hboth := hone.trans hsent
        rwa [hflat, List.take_append_drop] at hboth

/-! ## §3 — the buffer.

A block filled up to `off`.  Its front is what has been written and not been sent, and `putAt`
behind the front is the one way of writing into it. -/

/-- A copy into the block, inside it. -/
theorem putAt_eq {block data : List α} {off : Nat} (h : off + data.length ≤ block.length) :
    putAt block off data = some (block.take off ++ data ++ block.drop (off + data.length)) :=
  if_pos h

/-- The front of the block after the copy. -/
theorem length_take_append {block data : List α} {off : Nat}
    (h : off + data.length ≤ block.length) : (block.take off ++ data).length = off + data.length := by
  rw [List.length_append, List.length_take]
  omega

/-- Putting the entries one by one is putting their concatenation. -/
theorem tntIoSendvPut_eq {iov : List (List α)} {block : List α} {off : Nat}
    (h : off + iov.flatten.length ≤ block.length) :
    tntIoSendvPut block off iov =
      some (block.take off ++ iov.flatten ++ block.drop (off + iov.flatten.length),
        off + iov.flatten.length) := by
  induction iov generalizing block off with
  | nil => simp [tntIoSendvPut]
  | cons v iov ih =>
    rw [List.flatten_cons, List.length_append] at h
    have hv : off + v.length ≤ block.length := by omega
    set block₁ := block.take off ++ v ++ block.drop (off + v.length) with hblock₁
    have hlen : (block.take off ++ v).length = off + v.length := length_take_append hv
    have htake : block₁.take (off + v.length) = block.take off ++ v := by
      rw [hblock₁, ← hlen, List.take_left]
    have hdrop : block₁.drop (off + v.length + iov.flatten.length) =
        block.drop (off + v.length + iov.flatten.length) := by
      rw [← List.drop_drop, hblock₁, ← hlen, List.drop_left, hlen, List.drop_drop]
    have hsum : off + (v :: iov).flatten.length = off + v.length + iov.flatten.length := by
      rw [List.flatten_cons, List.length_append, Nat.add_assoc]
    have hrest := @ih block₁ (off + v.length) (by
      rw [hblock₁, List.length_append, hlen, List.length_drop]
      omega)
    simp only [tntIoSendvPut, putAt_eq hv, bind, Option.bind_some]
    rw [hrest, htake, hdrop, hsum, List.flatten_cons, List.append_assoc (block.take off)]

/-- A send buffer: a sized block, filled up to `off`. -/
structure Iob.Sending (b : Iob α) : Prop where
  sized : b.Sized
  off_le : b.off ≤ b.size

/-- The front has as many bytes as the offset says. -/
theorem Iob.Sending.length_front {b : Iob α} (h : b.Sending) : b.front.length = b.off := by
  have hlen := h.sized.length_getD
  have hoff := h.off_le
  rw [Iob.front, List.length_take]
  omega

/-- On a buffered stream a gathered send is a send of the concatenation. -/
theorem tntIoSendv_eq_tntIoSend {s : StreamNet α} (hs : s.sbuf.Sending) {block : List α}
    (hb : s.sbuf.buf = some block) (iov : List (List α)) :
    tntIoSendv s iov = tntIoSend s iov.flatten := by
  have hblock : block.length = s.sbuf.size := by
    have hlen := hs.sized.length_getD
    rwa [hb] at hlen
  have hsum : (iov.map List.length).sum = iov.flatten.length := by
    rw [List.length_flatten]
  simp only [tntIoSendv, tntIoSend, hb, hsum]
  by_cases hbig : iov.flatten.length > s.sbuf.size
  · rw [if_pos hbig, if_pos hbig]
  · rw [if_neg hbig, if_neg hbig]
    by_cases hroom : s.sbuf.off + iov.flatten.length ≤ s.sbuf.size
    · have hfit : s.sbuf.off + iov.flatten.length ≤ block.length := by rw [hblock]; exact hroom
      rw [if_pos hroom, if_pos hroom, tntIoSendvPut_eq hfit, putAt_eq hfit]
      rfl
    · have hfit : 0 + iov.flatten.length ≤ block.length := by omega
      rw [if_neg hroom, if_neg hroom, tntIoSendvPut_eq hfit, putAt_eq hfit, Nat.zero_add]
      rfl

/-! ## §4 — one call.

Each call either leaves the buffer alone, or fills it up, or sends it first.  `SendPost` has these
in one statement: how many bytes were offered, how many of them the transport took, and what the
buffer is in the end if it took all and if it did not. -/

/-- A call that writes. -/
inductive SendOp (α : Type) where
  | send (buf : List α)
  | sendv (iov : List (List α))
  | flush
  deriving Repr, DecidableEq

def SendOp.payload : SendOp α → List α
  | .send buf => buf
  | .sendv iov => iov.flatten
  | .flush => []

def sendCall (s : StreamNet α) : SendOp α → Option (Int × StreamNet α)
  | .send buf => tntIoSend s buf
  | .sendv iov => tntIoSendv s iov
  | .flush => tntIoFlush s

/-- How many buffered bytes a call gives to the transport: all of them or none. -/
def SendOp.offers (op : SendOp α) (b : Iob α) : Nat :=
  match op with
  | .flush => b.off
  | op => if op.payload.length ≤ b.size ∧ b.size < b.off + op.payload.length then b.off else 0

/-- What a send offers before its payload: the buffer, if it is full. -/
theorem SendOp.offers_of_ne_flush {op : SendOp α} (hop : op ≠ .flush) (b : Iob α) :
    op.offers b = if op.payload.length ≤ b.size ∧ b.size < b.off + op.payload.length then b.off
      else 0 := by
  cases op with
  | flush => exact absurd rfl hop
  | send buf | sendv iov => rfl

/-- What a call returns that succeeds. -/
def SendOp.result (op : SendOp α) (b : Iob α) : Int :=
  match op with
  | .flush => b.off
  | op => op.payload.length

/-- What a call does that is not refused: the transport takes a part of the buffered bytes; if it
takes all that it is offered, the payload goes behind the rest. -/
structure SendPost (op : SendOp α) (s s' : StreamNet α) : Prop where
  rbuf : s'.rbuf = s.rbuf
  move : s'.io.move = s.io.move
  incoming : s'.io.incoming = s.io.incoming
  iovmax : s'.io.iovmax = s.io.iovmax
  accepted : s'.io.accepted = s.io.accepted ++ s.sbuf.front.take (s.takes (op.offers s.sbuf))
  takes_le : s.takes (op.offers s.sbuf) ≤ op.offers s.sbuf
  sending : s'.sbuf.Sending
  size_eq : s'.sbuf.size = s.sbuf.size
  done : s.takes (op.offers s.sbuf) = op.offers s.sbuf →
    s'.sbuf.front = s.sbuf.front.drop (op.offers s.sbuf) ++ op.payload
  failed : s.takes (op.offers s.sbuf) ≠ op.offers s.sbuf → s'.sbuf = s.sbuf

/-- Nothing offered, nothing taken. -/
@[simp] theorem StreamNet.takes_zero (s : StreamNet α) : s.takes 0 = 0 := by
  unfold StreamNet.takes taken
  cases s.io.move s.io.clock <;> rfl

/-- Giving the whole buffer to the transport. -/
theorem sendBuffer_spec {s : StreamNet α} (hs : s.sbuf.Sending) (hoff : s.sbuf.off ≠ 0) :
    ∃ rc s', tntIoSendRaw s s.sbuf.front true = some (rc, s') ∧
      Sent s (s.sbuf.front.take (s.takes s.sbuf.off)) s' ∧ s.takes s.sbuf.off ≤ s.sbuf.off ∧
      rc = if s.takes s.sbuf.off = s.sbuf.off then (s.sbuf.off : Int) else -1 := by
  have hlen := hs.length_front
  have hne : s.sbuf.front ≠ [] := by
    intro h
    rw [h, List.length_nil] at hlen
    exact hoff hlen.symm
  have hraw := tntIoSendRaw_spec s hne
  rwa [hlen] at hraw

/-- **`tnt_io_flush`.**  The buffer is empty afterwards, or it is as it was and the transport has
some of it. -/
theorem tntIoFlush_spec {s : StreamNet α} (hs : s.sbuf.Sending) :
    ∃ s', tntIoFlush s = some (if s.takes s.sbuf.off = s.sbuf.off then (s.sbuf.off : Int) else -1,
      s') ∧ SendPost .flush s s' := by
  unfold tntIoFlush
  by_cases hoff : s.sbuf.off = 0
  · have hfront : s.sbuf.front = [] := by rw [Iob.front, hoff, List.take_zero]
    refine ⟨s, by simp [hoff], rfl, rfl, rfl, rfl, ?_, ?_, hs, rfl, ?_, fun _ => rfl⟩
    · rw [hfront, List.take_nil, List.append_nil]
    · show s.takes s.sbuf.off ≤ s.sbuf.off
      rw [hoff, StreamNet.takes_zero]
    · intro _
      rw [hfront, List.drop_nil]
      rfl
  · obtain ⟨rc, s₁, hraw, hsent, hle, hrc⟩ := sendBuffer_spec hs hoff
    rw [if_neg hoff]
    simp only [hraw, bind, Option.bind_some]
    by_cases hall : s.takes s.sbuf.off = s.sbuf.off
    · -- all of it went out, and the buffer is empty
      have hok : ¬ rc = -1 := by
        rw [hrc, if_pos hall]
        omega
      rw [if_neg hok, if_pos hall]
      rw [if_pos hall] at hrc
      refine ⟨{ s₁ with sbuf.off := 0 }, by rw [hrc], hsent.rbuf, hsent.move, hsent.incoming,
        hsent.iovmax, hsent.accepted, hle, ⟨?_, Nat.zero_le _⟩, ?_, ?_, ?_⟩
      · show s₁.sbuf.Sized
        rw [hsent.sbuf]
        exact hs.sized
      · show s₁.sbuf.size = _
        rw [hsent.sbuf]
      · intro _
        show List.take 0 _ = List.drop s.sbuf.off _ ++ []
        rw [List.drop_eq_nil_of_le (by rw [hs.length_front]), List.take_zero, List.append_nil]
      · intro h
        exact absurd hall h
    · -- the buffer stays as it is: what was accepted is still in it
      have hbad : rc = -1 := by rw [hrc, if_neg hall]
      rw [if_pos hbad, if_neg hall]
      refine ⟨s₁, rfl, hsent.rbuf, hsent.move, hsent.incoming, hsent.iovmax, hsent.accepted, hle,
        ?_, ?_, ?_, fun _ => hsent.sbuf⟩
      · rw [hsent.sbuf]
        exact hs
      · rw [hsent.sbuf]
      · intro h
        exact absurd h hall

/-- The buffer after `data` has been put at `off`. -/
theorem Iob.put_front {b : Iob α} {block data : List α} {off : Nat} (hb : b.size = block.length)
    (hpos : 0 < b.size) (hfit : off + data.length ≤ block.length) :
    Iob.Sending { b with
        buf := some (block.take off ++ data ++ block.drop (off + data.length))
        off := off + data.length } ∧
      Iob.front { b with
        buf := some (block.take off ++ data ++ block.drop (off + data.length))
        off := off + data.length } = block.take off ++ data := by
  have hlen := length_take_append hfit
  refine ⟨⟨⟨?_, hpos⟩, ?_⟩, ?_⟩
  · show (block.take off ++ data ++ block.drop (off + data.length)).length = b.size
    rw [List.length_append, hlen, List.length_drop]
    omega
  · show off + data.length ≤ b.size
    omega
  · show List.take (off + data.length) _ = _
    rw [Option.getD_some, ← hlen, List.take_left]

/-- **`tnt_io_send`** on a buffered stream, for a payload that is not too big. -/
theorem tntIoSend_spec {s : StreamNet α} (hs : s.sbuf.Sending) {block : List α}
    (hb : s.sbuf.buf = some block) {op : SendOp α} (hop : op ≠ .flush)
    (hfit : op.payload.length ≤ s.sbuf.size) :
    ∃ s', tntIoSend s op.payload = some (if s.takes (op.offers s.sbuf) = op.offers s.sbuf then
        (op.payload.length : Int) else -1, s') ∧ SendPost op s s' := by
  have hsized : block.length = s.sbuf.size ∧ 0 < s.sbuf.size := by
    have h := hs.sized
    rwa [Iob.Sized, hb] at h
  have hoffers := SendOp.offers_of_ne_flush hop s.sbuf
  have hfront : s.sbuf.front = block.take s.sbuf.off := by rw [Iob.front, hb, Option.getD_some]
  simp only [tntIoSend, hb, if_neg (Nat.not_lt.mpr hfit)]
  by_cases hroom : s.sbuf.off + op.payload.length ≤ s.sbuf.size
  · -- there is room: nothing is offered
    have hzero : op.offers s.sbuf = 0 := by rw [hoffers, if_neg (by omega)]
    have hput : s.sbuf.off + op.payload.length ≤ block.length := by omega
    obtain ⟨hsend, hfr⟩ := @Iob.put_front _ s.sbuf block op.payload s.sbuf.off hsized.1.symm
      hsized.2 hput
    rw [if_pos hroom, putAt_eq hput, hzero, StreamNet.takes_zero, if_pos rfl]
    refine ⟨_, rfl, rfl, rfl, rfl, rfl, ?_, ?_, hsend, rfl, ?_, ?_⟩
    · rw [hzero, StreamNet.takes_zero, List.take_zero, List.append_nil]
    · rw [hzero, StreamNet.takes_zero]
    · intro _
      rw [hzero, List.drop_zero, hfront]
      exact hfr
    · intro h
      rw [hzero, StreamNet.takes_zero] at h
      exact absurd rfl h
  · -- the buffer is sent first
    have hall : op.offers s.sbuf = s.sbuf.off := by rw [hoffers, if_pos (by omega)]
    obtain ⟨rc, s₁, hraw, hsent, hle, hrc⟩ := sendBuffer_spec hs (by omega)
    rw [if_neg hroom, hall]
    simp only [hraw, bind, Option.bind_some]
    by_cases hdone : s.takes s.sbuf.off = s.sbuf.off
    · -- the payload goes to the start of the empty buffer
      have hok : ¬ rc = -1 := by
        rw [hrc, if_pos hdone]
        omega
      have hput : 0 + op.payload.length ≤ block.length := by omega
      have hs₁ : s₁.sbuf.size = s.sbuf.size := by rw [hsent.sbuf]
      obtain ⟨hsend, hfr⟩ := @Iob.put_front _ s₁.sbuf block op.payload 0
        (by rw [hs₁]; exact hsized.1.symm) (by rw [hs₁]; exact hsized.2) hput
      rw [if_neg hok, if_pos hdone, putAt_eq hput]
      rw [Nat.zero_add] at hsend hfr
      simp only [Option.bind_some, Nat.zero_add]
      refine ⟨_, rfl, hsent.rbuf, hsent.move, hsent.incoming, hsent.iovmax, ?_, ?_, hsend, hs₁, ?_,
        ?_⟩
      · rw [hall]
        exact hsent.accepted
      · rw [hall]
        exact hle
      · intro _
        have hempty : s.sbuf.front.drop s.sbuf.off = [] :=
          List.drop_eq_nil_of_le (by rw [hs.length_front])
        rw [hall, hempty]
        exact hfr
      · intro h
        rw [hall] at h
        exact absurd hdone h
    · -- the buffer stays as it is, and the payload is not in it
      have hbad : rc = -1 := by rw [hrc, if_neg hdone]
      rw [if_pos hbad, if_neg hdone]
      refine ⟨s₁, rfl, hsent.rbuf, hsent.move, hsent.incoming, hsent.iovmax, ?_, ?_, ?_, ?_, ?_,
        fun _ => hsent.sbuf⟩
      · rw [hall]
        exact hsent.accepted
      · rw [hall]
        exact hle
      · rw [hsent.sbuf]
        exact hs
      · rw [hsent.sbuf]
      · intro h
        rw [hall] at h
        exact absurd h hdone

/-- **A call on a buffered stream.**  It is refused if its payload is larger than the buffer.  All
three calls have the same effect, so that runs need not tell them apart. -/
theorem sendCall_buffered {s : StreamNet α} (hs : s.sbuf.Sending) {block : List α}
    (hb : s.sbuf.buf = some block) (op : SendOp α) :
    (s.sbuf.size < op.payload.length ∧ sendCall s op = some (-1, { s with error := .big })) ∨
      (op.payload.length ≤ s.sbuf.size ∧
        ∃ s', sendCall s op = some (if s.takes (op.offers s.sbuf) = op.offers s.sbuf then
          op.result s.sbuf else -1, s') ∧ SendPost op s s') := by
  -- the vector call ends up where the plain one does, so one specification serves both
  have hsend : ∀ op : SendOp α, op ≠ .flush → sendCall s op = tntIoSend s op.payload := by
    intro op hop
    cases op with
    | send buf => rfl
    | sendv iov => exact tntIoSendv_eq_tntIoSend hs hb iov
    | flush => exact absurd rfl hop
  -- a payload larger than the buffer is refused before anything is sent; a flush has none
  by_cases hbig : s.sbuf.size < op.payload.length
  · left
    have hop : op ≠ .flush := by
      rintro rfl
      exact absurd hbig (Nat.not_lt_zero _)
    refine ⟨hbig, ?_⟩
    rw [hsend op hop]
    simp only [tntIoSend, hb, if_pos hbig]
  · right
    have hfit : op.payload.length ≤ s.sbuf.size := Nat.not_lt.mp hbig
    refine ⟨hfit, ?_⟩
    cases hop : op with
    | flush => exact tntIoFlush_spec hs
    | send buf | sendv iov =>
      rw [← hop]
      have hne : op ≠ .flush := by rw [hop]; simp
      have hres : op.result s.sbuf = op.payload.length := by rw [hop]; rfl
      rw [hsend op hne, hres]
      exact tntIoSend_spec hs hb hne hfit

/-! What no call touches, whatever it is called with and whatever the transport does. -/

/-- The raw loops send some bytes and touch nothing else. -/
theorem sendRawLoop_sent {buf : List α} {all : Bool} {fuel off : Nat} {s s' : StreamNet α} {rc : Int}
    (h : sendRawLoop buf all fuel s off = some (rc, s')) : ∃ bs, Sent s bs s' := by
  induction fuel generalizing s off with
  | zero => exact absurd h (by simp [sendRawLoop])
  | succ fuel ih =>
    rcases hsend : s.io.send (buf.drop off) with ⟨r, io⟩
    obtain ⟨hmove, hin, hmax, -, hacc, -, -, -⟩ := Transport.send_spec hsend
    have hone : Sent s ((buf.drop off).take r) { s with io := io } :=
      ⟨rfl, rfl, hmove, hin, hmax, hacc⟩
    simp only [sendRawLoop, hsend] at h
    split_ifs at h with h0 hmore
    · obtain ⟨-, rfl⟩ := Prod.mk.inj (Option.some.inj h)
      exact ⟨_, hone.sbuf, hone.rbuf, hone.move, hone.incoming, hone.iovmax, hone.accepted⟩
    · obtain ⟨bs, hsent⟩ := ih h
      exact ⟨_, hone.trans hsent⟩
    · obtain ⟨-, rfl⟩ := Prod.mk.inj (Option.some.inj h)
      exact ⟨_, hone⟩

/-- The same for vectors. -/
theorem sendvRawLoop_sent {all : Bool} {fuel total : Nat} {iov : List (List α)}
    {s s' : StreamNet α} {rc : Int} (h : sendvRawLoop all fuel s iov total = some (rc, s')) :
    ∃ bs, Sent s bs s' := by
  induction fuel generalizing s iov total with
  | zero => exact absurd h (by simp [sendvRawLoop])
  | succ fuel ih =>
    unfold sendvRawLoop at h
    by_cases hiov : iov.length > 0
    · rw [if_pos hiov] at h
      set offered := if s.sbuf.txv then iov.take (min iov.length s.io.iovmax) else iov
      rcases hw : s.io.writev offered with ⟨r, io⟩
      obtain ⟨hmove, hin, hmax, -, hacc, -, -, -⟩ := Transport.send_spec hw
      have hone : Sent s (offered.flatten.take r) { s with io := io } :=
        ⟨rfl, rfl, hmove, hin, hmax, hacc⟩
      simp only [hw] at h
      split_ifs at h with h0 hall
      · obtain ⟨-, rfl⟩ := Prod.mk.inj (Option.some.inj h)
        exact ⟨_, hone.sbuf, hone.rbuf, hone.move, hone.incoming, hone.iovmax, hone.accepted⟩
      · obtain ⟨-, rfl⟩ := Prod.mk.inj (Option.some.inj h)
        exact ⟨_, hone⟩
      · obtain ⟨bs, hsent⟩ := ih h
        exact ⟨_, hone.trans hsent⟩
    · rw [if_neg hiov] at h
      obtain ⟨-, rfl⟩ := Prod.mk.inj (Option.some.inj h)
      exact ⟨_, .refl _⟩

/-- A call that writes leaves the receiving side alone. -/
structure SendFrame (s s' : StreamNet α) : Prop where
  sending : s'.sbuf.Sending
  rbuf : s'.rbuf = s.rbuf
  move : s'.io.move = s.io.move
  incoming : s'.io.incoming = s.io.incoming

/-- A call leaves the receiving side alone. -/
theorem sendCall_frame {s s' : StreamNet α} (hs : s.sbuf.Sending) {op : SendOp α} {rc : Int}
    (h : sendCall s op = some (rc, s')) : SendFrame s s' := by
  cases hb : s.sbuf.buf with
  | some block =>
    rcases sendCall_buffered hs hb op with ⟨-, hcall⟩ | ⟨-, s'', hcall, hpost⟩
    · rw [hcall] at h
      obtain ⟨-, rfl⟩ := Prod.mk.inj (Option.some.inj h)
      exact ⟨hs, rfl, rfl, rfl⟩
    · rw [hcall] at h
      obtain ⟨-, rfl⟩ := Prod.mk.inj (Option.some.inj h)
      exact ⟨hpost.sending, hpost.rbuf, hpost.move, hpost.incoming⟩
  | none =>
    have hraw : ∀ {bs : List α}, Sent s bs s' → SendFrame s s' := by
      intro bs hsent
      exact ⟨by rw [hsent.sbuf]; exact hs, hsent.rbuf, hsent.move, hsent.incoming⟩
    cases op with
    | send buf =>
      simp only [sendCall, tntIoSend, hb] at h
      obtain ⟨bs, hsent⟩ := sendRawLoop_sent h
      exact hraw hsent
    | sendv iov =>
      simp only [sendCall, tntIoSendv, hb] at h
      obtain ⟨bs, hsent⟩ := sendvRawLoop_sent h
      exact hraw hsent
    | flush =>
      -- without a buffer there is nothing to flush
      have hzero : s.sbuf.off = 0 := by
        have hsize : s.sbuf.size = 0 := by
          have hsized := hs.sized
          rwa [Iob.Sized, hb] at hsized
        have hoff := hs.off_le
        omega
      simp only [sendCall, tntIoFlush, if_pos hzero] at h
      obtain ⟨-, rfl⟩ := Prod.mk.inj (Option.some.inj h)
      exact ⟨hs, rfl, rfl, rfl⟩

/-- So does no call, ... -/
theorem SendFrame.refl {s : StreamNet α} (h : s.sbuf.Sending) : SendFrame s s :=
  ⟨h, rfl, rfl, rfl⟩

/-- ... and so do many. -/
theorem SendFrame.trans {s s' s'' : StreamNet α} (h : SendFrame s s') (h' : SendFrame s' s'') :
    SendFrame s s'' :=
  ⟨h'.sending, h'.rbuf.trans h.rbuf, h'.move.trans h.move, h'.incoming.trans h.incoming⟩

/-! ## §5 — runs.

Nothing fails in this section.  The equation of the invariant holds of every state, whatever the
sizes are, and each call keeps it; that it returns what its caller expects is a part of the step
(`SendCall.Fine`). -/

/-- What can be seen of a call. -/
structure SendCall (α : Type) where
  before : StreamNet α
  op : SendOp α
  rc : Int
  after : StreamNet α

/-- Calls one after the other. -/
def sendCalls : StreamNet α → List (SendOp α) → Option (List (SendCall α) × StreamNet α)
  | s, [] => some ([], s)
  | s, op :: ops => do
    let (rc, s') ← sendCall s op
    let (calls, s'') ← sendCalls s' ops
    return (⟨s, op, rc, s'⟩ :: calls, s'')

/-- A run that begins with a call. -/
theorem sendCalls_cons {s s' s'' : StreamNet α} {op : SendOp α} {ops : List (SendOp α)} {rc : Int}
    {calls : List (SendCall α)} (hcall : sendCall s op = some (rc, s'))
    (hrun : sendCalls s' ops = some (calls, s'')) :
    sendCalls s (op :: ops) = some (⟨s, op, rc, s'⟩ :: calls, s'') := by
  simp only [sendCalls, hcall, hrun, bind, Option.bind_some, pure]

/-- The payload of a call that has not failed. -/
def SendCall.written (c : SendCall α) : List α := if 0 ≤ c.rc then c.op.payload else []

/-- The payloads of the calls that have not failed, in call order. -/
def written (calls : List (SendCall α)) : List α := (calls.map SendCall.written).flatten

/-- What a call has written is of its payload. -/
theorem SendCall.written_sublist (c : SendCall α) : c.written.Sublist c.op.payload := by
  unfold SendCall.written
  split_ifs
  · exact List.Sublist.refl _
  · exact List.nil_sublist _

/-- What a run has written, call by call. -/
theorem append_written_cons (done : List α) (c : SendCall α) (calls : List (SendCall α)) :
    done ++ written (c :: calls) = (done ++ c.written) ++ written calls := by
  simp [written, List.append_assoc]

/-- What has been written so far: accepted by the transport, and in the buffer behind it. -/
def StreamNet.log (s : StreamNet α) : List α := s.io.accepted ++ s.sbuf.front

/-- A call as its caller may make it. -/
def SendOp.Valid (iovmax : Nat) : SendOp α → Prop
  | .send buf => 1 ≤ buf.length
  | .sendv iov => 1 ≤ iov.flatten.length ∧ iov.length ≤ iovmax
  | .flush => True

/-- What a caller may rely on: a flush empties the buffer, a send returns its size or is refused for
its size and changes nothing else than the error. -/
def SendCall.Fine (c : SendCall α) : Prop :=
  c.after.sbuf.off ≤ c.after.sbuf.size ∧
    match c.op with
    | .flush => 0 ≤ c.rc ∧ c.after.sbuf.off = 0
    | op =>
      if c.before.sbuf.buf.isSome ∧ c.before.sbuf.size < op.payload.length then
        c.rc = -1 ∧ c.after = { c.before with error := .big }
      else c.rc = op.payload.length

/-- What one call keeps, if the transport does not fail. -/
structure SendKept (s s' : StreamNet α) : Prop where
  sending : s'.sbuf.Sending
  reliable : s'.io.Reliable
  iovmax : s'.io.iovmax = s.io.iovmax
  size_eq : s'.sbuf.size = s.sbuf.size
  rbuf : s'.rbuf = s.rbuf
  incoming : s'.io.incoming = s.io.incoming

/-- **A call without failures** on a buffered stream, ... -/
theorem sendCall_reliable_buffered {s : StreamNet α} (hs : s.sbuf.Sending) (hio : s.io.Reliable)
    {block : List α} (hb : s.sbuf.buf = some block) (op : SendOp α) :
    ∃ rc s', sendCall s op = some (rc, s') ∧ SendKept s s' ∧ (⟨s, op, rc, s'⟩ : SendCall α).Fine ∧
      s'.log = s.log ++ (⟨s, op, rc, s'⟩ : SendCall α).written := by
  rcases sendCall_buffered hs hb op with ⟨hbig, hcall⟩ | ⟨hfit, s', hcall, hpost⟩
  · -- refused: the payload is larger than the buffer
    refine ⟨_, _, hcall, ⟨hs, hio, rfl, rfl, rfl, rfl⟩, ⟨hs.off_le, ?_⟩, ?_⟩
    · cases op with
      | flush => exact absurd hbig (Nat.not_lt_zero _)
      | send buf | sendv iov =>
        show if _ then _ else _
        rw [if_pos ⟨by rw [hb]; rfl, hbig⟩]
        exact ⟨rfl, rfl⟩
    · show s.log = s.log ++ if (0 : Int) ≤ -1 then _ else []
      rw [if_neg (by decide), List.append_nil]
  · -- a transport that does not fail takes all it is offered
    have htakes : s.takes (op.offers s.sbuf) = op.offers s.sbuf := StreamNet.takes_reliable hio _
    have hfront := hpost.done htakes
    have hacc := hpost.accepted
    rw [htakes] at hacc
    rw [if_pos htakes] at hcall
    have hio' : s'.io.Reliable := by
      rintro n ⟨e, he⟩
      exact hio n ⟨e, by rw [← hpost.move]; exact he⟩
    have hpos : 0 ≤ op.result s.sbuf := by cases op <;> exact Int.natCast_nonneg _
    refine ⟨_, s', hcall, ⟨hpost.sending, hio', hpost.iovmax, hpost.size_eq, hpost.rbuf,
      hpost.incoming⟩, ⟨hpost.sending.off_le, ?_⟩, ?_⟩
    · cases op with
      | flush =>
        refine ⟨hpos, ?_⟩
        have hlen := hpost.sending.length_front
        rw [hfront] at hlen
        rw [← hlen]
        show (List.drop s.sbuf.off s.sbuf.front ++ []).length = 0
        rw [List.append_nil, List.length_drop, hs.length_front, Nat.sub_self]
      | send buf | sendv iov =>
        show if _ then _ else _
        rw [if_neg (fun h => absurd h.2 (Nat.not_lt.mpr hfit))]
        rfl
    · show s'.io.accepted ++ s'.sbuf.front = s.io.accepted ++ s.sbuf.front ++ if _ then _ else _
      rw [if_pos hpos, hacc, hfront, List.append_assoc, ← List.append_assoc (List.take _ _),
        List.take_append_drop, List.append_assoc]

/-- ... on an unbuffered one, ... -/
theorem sendCall_reliable_unbuffered {s : StreamNet α} (hs : s.sbuf.Sending) (hio : s.io.Reliable)
    (hb : s.sbuf.buf = none) {op : SendOp α} (hop : op.Valid s.io.iovmax) :
    ∃ rc s', sendCall s op = some (rc, s') ∧ SendKept s s' ∧ (⟨s, op, rc, s'⟩ : SendCall α).Fine ∧
      s'.log = s.log ++ (⟨s, op, rc, s'⟩ : SendCall α).written := by
  have hzero : s.sbuf.off = 0 := by
    have hsize : s.sbuf.size = 0 := by
      have h := hs.sized
      rwa [Iob.Sized, hb] at h
    have hoff := hs.off_le
    omega
  have hempty : s.sbuf.front = [] := by rw [Iob.front, hzero, List.take_zero]
  -- the two raw sends end in the same way
  have hsent : ∀ {op : SendOp α} {s' : StreamNet α}, op ≠ .flush → Sent s op.payload s' →
      SendKept s s' ∧ (⟨s, op, op.payload.length, s'⟩ : SendCall α).Fine ∧
        s'.log = s.log ++ (⟨s, op, op.payload.length, s'⟩ : SendCall α).written := by
    intro op s' hne h
    have hsb := h.sbuf
    refine ⟨⟨by rw [hsb]; exact hs, h.reliable hio, h.iovmax, by rw [hsb], h.rbuf, h.incoming⟩,
      ⟨?_, ?_⟩, ?_⟩
    · show s'.sbuf.off ≤ s'.sbuf.size
      rw [hsb]
      exact hs.off_le
    · cases op with
      | flush => exact absurd rfl hne
      | send buf | sendv iov =>
        show if _ then _ else _
        rw [if_neg (fun h => by simp [hb] at h)]
    · show s'.io.accepted ++ s'.sbuf.front = s.io.accepted ++ s.sbuf.front ++ if _ then _ else _
      rw [if_pos (Int.natCast_nonneg _), h.accepted, hsb, hempty, List.append_nil, List.append_nil]
  cases op with
  | send buf =>
    have hne : buf ≠ [] := List.length_pos_iff.mp hop
    obtain ⟨rc, s', hraw, hs', -, hrc⟩ := tntIoSendRaw_spec s hne
    rw [StreamNet.takes_reliable hio, List.take_length] at hs'
    rw [StreamNet.takes_reliable hio, if_pos rfl] at hrc
    refine ⟨_, s', ?_, @hsent (.send buf) s' (by simp) hs'⟩
    show tntIoSend s buf = _
    simp only [tntIoSend, hb]
    rw [hraw, hrc]
    rfl
  | sendv iov =>
    obtain ⟨hpos, hcount⟩ := hop
    obtain ⟨s', hraw, hs'⟩ := @sendvRawLoop_reliable _ (iov.flatten.length + 1) s iov 0 hio hcount
      (Or.inr (List.length_pos_iff.mp hpos)) (Nat.lt_succ_self _)
    refine ⟨_, s', ?_, @hsent (.sendv iov) s' (by simp) hs'⟩
    show tntIoSendv s iov = _
    simp only [tntIoSendv, hb, tntIoSendvRaw]
    rw [hraw, Nat.zero_add]
    rfl
  | flush =>
    refine ⟨0, s, ?_, ⟨hs, hio, rfl, rfl, rfl, rfl⟩, ⟨hs.off_le, Int.le_refl 0, hzero⟩, ?_⟩
    · show tntIoFlush s = _
      rw [tntIoFlush, if_pos hzero]
    · show s.log = s.log ++ if _ then [] else []
      rw [ite_self, List.append_nil]

/-- ... and on either. -/
theorem sendCall_reliable {s : StreamNet α} (hs : s.sbuf.Sending) (hio : s.io.Reliable)
    {op : SendOp α} (hop : op.Valid s.io.iovmax) :
    ∃ rc s', sendCall s op = some (rc, s') ∧ SendKept s s' ∧ (⟨s, op, rc, s'⟩ : SendCall α).Fine ∧
      s'.log = s.log ++ (⟨s, op, rc, s'⟩ : SendCall α).written := by
  cases hb : s.sbuf.buf with
  | none => exact sendCall_reliable_unbuffered hs hio hb hop
  | some block => exact sendCall_reliable_buffered hs hio hb op

/-- **A run without failures**, by induction on the calls. -/
theorem sendCalls_reliable {s : StreamNet α} (hs : s.sbuf.Sending) (hio : s.io.Reliable)
    {ops : List (SendOp α)} (hops : ∀ op ∈ ops, op.Valid s.io.iovmax) :
    ∃ calls s', sendCalls s ops = some (calls, s') ∧ (∀ c ∈ calls, c.Fine) ∧
      ∀ pre c post, calls = pre ++ c :: post →
        c.after.log = s.log ++ written (pre ++ [c]) := by
  induction ops generalizing s with
  | nil => exact ⟨[], s, rfl, by simp, by simp⟩
  | cons op ops ih =>
    obtain ⟨rc, s₁, hcall, hkept, hfine, hlog⟩ := sendCall_reliable hs hio (hops op (by simp))
    have hops₁ : ∀ op ∈ ops, op.Valid s₁.io.iovmax := by
      intro op' hop'
      rw [hkept.iovmax]
      exact hops op' (by simp [hop'])
    -- a kernel that took everything is still one that will, so the rest runs the same way
    obtain ⟨calls, s', hrun, hall, hlogs⟩ := ih hkept.sending hkept.reliable hops₁
    refine ⟨_, s', sendCalls_cons hcall hrun, ?_, ?_⟩
    · intro c hc
      rcases List.mem_cons.mp hc with rfl | hc
      · exact hfine
      · exact hall c hc
    · intro pre c post hsplit
      -- the log after a call is what that call wrote, added to what stood there before it
      cases pre with
      | nil =>
        obtain ⟨rfl, -⟩ := List.cons.inj hsplit
        show s₁.log = _
        rw [hlog]
        simp [written]
      | cons p pre =>
        obtain ⟨rfl, hrest⟩ := List.cons.inj hsplit
        rw [hlogs pre c post hrest, hlog, List.cons_append, append_written_cons]

/-- **Send buffering is transparent.**  After every call the bytes accepted by the transport and the
bytes in the buffer are the payloads written so far; every call is `Fine`; and `tnt_io_sendv_raw`
terminates.  Payloads may be larger than the buffer, vectors may have any number of entries, and the
kernel takes as little at a time as it likes, a byte being the least.  `tnt_io_sendv_raw` rewrites
its vector in place after every partial write; its loop ends because what is left of the vector goes
down. -/
theorem tntIoSend_transparent (sblock rblock incoming : List α) (txv : Bool) (iovmax : Nat)
    {move : Nat → Move} (hmove : ∀ n e, move n ≠ .fail e) {ops : List (SendOp α)}
    (hops : ∀ op ∈ ops, op.Valid iovmax) :
    (∃ calls s', sendCalls (.fresh sblock rblock incoming txv iovmax move) ops =
        some (calls, s') ∧ (∀ c ∈ calls, c.Fine) ∧
        ∀ pre c post, calls = pre ++ c :: post →
          c.after.io.accepted ++ c.after.sbuf.front = written (pre ++ [c])) ∧
      ∀ (s : StreamNet α) (iov : List (List α)), (tntIoSendvRaw s iov true).isSome := by
  set s : StreamNet α := .fresh sblock rblock incoming txv iovmax move with hs
  have hio : s.io.Reliable := by
    rintro n ⟨e, he⟩
    exact hmove n e he
  have hwf := tntIobInit_wf sblock txv
  have hlog : s.log = [] := by
    show [] ++ (tntIobInit sblock txv).front = []
    rw [tntIobInit_front, List.append_nil]
  refine ⟨?_, ?_⟩
  · obtain ⟨calls, s', hrun, hall, hlogs⟩ := @sendCalls_reliable _ s
      ⟨hwf.sized, Nat.zero_le _⟩ hio ops hops
    refine ⟨calls, s', hrun, hall, ?_⟩
    intro pre c post hsplit
    have h := hlogs pre c post hsplit
    rwa [hlog, List.nil_append] at h
  · intro s iov
    obtain ⟨rc, s', h⟩ := tntIoSendvRaw_total s iov
    rw [h]
    rfl

/-- A gathered send with empty entries, a send that does not fit behind it, one that fits into no
buffer, and a flush. -/
theorem tntIoSend_transparent_four :
    ∃ calls s', sendCalls (.fresh [0, 0, 0, 0] [] [] true 16 fun _ => .take 0)
        [.sendv [[], [1, 2], [], [3]], .send [4, 5], .send [6, 6, 6, 6, 6], .flush] =
          some (calls, s') ∧ calls.map SendCall.rc = [3, 2, -1, 2] ∧
      s'.io.accepted = [(1 : UInt8), 2, 3, 4, 5] := by
  obtain ⟨⟨calls, s', hrun, -, hlogs⟩, -⟩ := @tntIoSend_transparent UInt8 [0, 0, 0, 0] [] [] true 16
    (fun _ => .take 0) (by simp)
    [.sendv [[], [1, 2], [], [3]], .send [4, 5], .send [6, 6, 6, 6, 6], .flush]
    (by simp [SendOp.Valid])
  obtain ⟨rfl, rfl⟩ := Prod.mk.inj (Option.some.inj hrun)
  refine ⟨_, _, hrun, by decide, ?_⟩
  exact (List.append_nil _).symm.trans (hlogs [_, _, _] _ [] rfl)

/-! ## §6 — runs in which the transport fails.

Now the equation does not hold, and what can be said is how it is broken.  As the buffer is not
emptied by a send that fails, there are bytes that were accepted and are still in it. -/

/-- How many bytes the transport takes in a call on a buffered stream. -/
def SendCall.takes (c : SendCall α) : Nat := c.before.takes (c.op.offers c.before.sbuf)

/-- The transport takes a part of the bytes it is offered in the call, and then it fails. -/
def SendCall.BreaksOff (c : SendCall α) : Prop :=
  0 < c.takes ∧ c.takes < c.op.offers c.before.sbuf

/-- What one call on a buffered stream does to the bytes, whether it is refused, fails or not. -/
structure SendStep (c : SendCall α) : Prop where
  sending : c.after.sbuf.Sending
  size_eq : c.after.sbuf.size = c.before.sbuf.size
  accepted : c.after.io.accepted = c.before.io.accepted ++ c.before.sbuf.front.take c.takes
  takes_le : c.takes ≤ c.op.offers c.before.sbuf
  offers : c.op.offers c.before.sbuf = 0 ∨ c.op.offers c.before.sbuf = c.before.sbuf.off
  ends : (c.takes = c.op.offers c.before.sbuf ∧ c.written = c.op.payload ∧
      c.after.sbuf.front = c.before.sbuf.front.drop c.takes ++ c.op.payload) ∨
    ((c.takes = 0 ∨ c.BreaksOff) ∧ c.written = [] ∧ c.after.sbuf.front = c.before.sbuf.front)

/-- A call offers the buffer or not. -/
theorem SendOp.offers_cases (op : SendOp α) (b : Iob α) : op.offers b = 0 ∨ op.offers b = b.off := by
  by_cases hop : op = .flush
  · rw [hop]
    exact Or.inr rfl
  · rw [SendOp.offers_of_ne_flush hop]
    split_ifs
    · exact Or.inr rfl
    · exact Or.inl rfl

/-- **A step of a run**, whatever the transport does.  It puts the lemmas about the three calls into
the terms of the run: what was offered, what was taken, and how the buffer ends. -/
theorem sendCall_step {s : StreamNet α} (hs : s.sbuf.Sending) (hbuf : 0 < s.sbuf.size)
    (op : SendOp α) :
    ∃ rc s', sendCall s op = some (rc, s') ∧ SendStep (⟨s, op, rc, s'⟩ : SendCall α) := by
  obtain ⟨block, hb⟩ : ∃ block, s.sbuf.buf = some block := by
    cases hb : s.sbuf.buf with
    | none =>
      have h := hs.sized
      rw [Iob.Sized, hb] at h
      omega
    | some block => exact ⟨block, rfl⟩
  rcases sendCall_buffered hs hb op with ⟨hbig, hcall⟩ | ⟨-, s', hcall, hpost⟩
  · -- refused: nothing is offered, and nothing is written
    have hoffers : op.offers s.sbuf = 0 := by
      have hop : op ≠ .flush := by
        rintro rfl
        exact absurd hbig (Nat.not_lt_zero _)
      rw [SendOp.offers_of_ne_flush hop, if_neg (by omega)]
    have htakes : s.takes (op.offers s.sbuf) = 0 := by rw [hoffers, StreamNet.takes_zero]
    refine ⟨_, _, hcall, hs, rfl, ?_, ?_, Or.inl hoffers, Or.inr ⟨Or.inl htakes, ?_, rfl⟩⟩
    · show s.io.accepted = s.io.accepted ++ s.sbuf.front.take (s.takes (op.offers s.sbuf))
      rw [htakes, List.take_zero, List.append_nil]
    · show s.takes (op.offers s.sbuf) ≤ op.offers s.sbuf
      omega
    · exact if_neg (by simp)
  · refine ⟨_, s', hcall, hpost.sending, hpost.size_eq, hpost.accepted, hpost.takes_le,
      op.offers_cases s.sbuf, ?_⟩
    by_cases hall : s.takes (op.offers s.sbuf) = op.offers s.sbuf
    · left
      refine ⟨hall, ?_, ?_⟩
      · have hpos : 0 ≤ op.result s.sbuf := by cases op <;> exact Int.natCast_nonneg _
        unfold SendCall.written
        simp only [if_pos hall, if_pos hpos]
      · show _ = List.drop (s.takes (op.offers s.sbuf)) _ ++ _
        rw [hall]
        exact hpost.done hall
    · right
      have hle := hpost.takes_le
      refine ⟨?_, ?_, by rw [hpost.failed hall]⟩
      · rcases Nat.eq_zero_or_pos (s.takes (op.offers s.sbuf)) with h0 | hpos
        · exact Or.inl h0
        · exact Or.inr ⟨hpos, lt_of_le_of_ne hle hall⟩
      · unfold SendCall.written
        simp only [if_neg hall, show ¬ (0 : Int) ≤ -1 by decide, if_false]

/-- A run only adds to what the transport has accepted. -/
theorem sendCalls_total {s : StreamNet α} (hs : s.sbuf.Sending) (hbuf : 0 < s.sbuf.size)
    (ops : List (SendOp α)) :
    ∃ calls s', sendCalls s ops = some (calls, s') ∧ s.io.accepted <+: s'.io.accepted ∧
      (written calls).Sublist (ops.map SendOp.payload).flatten := by
  induction ops generalizing s with
  | nil => exact ⟨[], s, rfl, List.prefix_refl _, List.Sublist.refl _⟩
  | cons op ops ih =>
    obtain ⟨rc, s₁, hcall, hstep⟩ := sendCall_step hs hbuf op
    obtain ⟨calls, s', hrun, hpre, hsub⟩ := ih hstep.sending (by rw [hstep.size_eq]; exact hbuf)
    refine ⟨_, s', sendCalls_cons hcall hrun, ?_, ?_⟩
    · have hone : s.io.accepted <+: s₁.io.accepted := by
        have hacc : s₁.io.accepted = s.io.accepted ++ _ := hstep.accepted
        rw [hacc]
        exact List.prefix_append _ _
      exact hone.trans hpre
    · show ((⟨s, op, rc, s₁⟩ : SendCall α).written ++ written calls).Sublist
        (op.payload ++ (ops.map SendOp.payload).flatten)
      exact (SendCall.written_sublist _).append hsub

/-- The stream after the transport has broken off: the first byte of the buffer has been accepted,
and everything accepted is a front part of what was written. -/
structure Torn (done : List α) (s : StreamNet α) : Prop where
  sending : s.sbuf.Sending
  buffered : 0 < s.sbuf.size
  accepted : s.io.accepted <+: done
  again : ∃ x rest, s.sbuf.front = x :: rest ∧ x ∈ s.io.accepted

/-- A call during which the transport breaks off leaves such a stream, and has written nothing: the
buffer had a first byte, and at least that one was taken. -/
theorem SendStep.torn {c : SendCall α} (h : SendStep c) (hs : c.before.sbuf.Sending)
    (hbuf : 0 < c.after.sbuf.size) (hbreak : c.BreaksOff) :
    Torn c.before.log c.after ∧ c.written = [] := by
  have hlt := hbreak.2
  have hoff : c.op.offers c.before.sbuf = c.before.sbuf.off := by
    rcases h.offers with h0 | h
    · omega
    · exact h
  rcases h.ends with ⟨heq, -, -⟩ | ⟨-, hwritten, hfront⟩
  · omega
  · obtain ⟨x, rest, hx⟩ : ∃ x rest, c.before.sbuf.front = x :: rest := by
      cases hfr : c.before.sbuf.front with
      | nil =>
        have hlen := hs.length_front
        rw [hfr, List.length_nil] at hlen
        omega
      | cons x rest => exact ⟨x, rest, rfl⟩
    refine ⟨⟨h.sending, hbuf, ?_, x, rest, by rw [hfront, hx], ?_⟩, hwritten⟩
    · rw [h.accepted, StreamNet.log]
      exact List.prefix_append_right_inj _ |>.mpr (List.take_prefix _ _)
    · obtain ⟨k, hk⟩ := Nat.exists_eq_succ_of_ne_zero (Nat.ne_of_gt hbreak.1)
      rw [h.accepted, hx, hk, List.take_succ_cons]
      exact List.mem_append_right _ List.mem_cons_self

/-- Where it does not break off, the buffer has gone out as a whole or not at all, and the log has
what the call wrote at its end. -/
theorem SendStep.log_eq {c : SendCall α} (h : SendStep c) (hbreak : ¬ c.BreaksOff) :
    c.after.log = c.before.log ++ c.written := by
  rw [StreamNet.log, StreamNet.log, h.accepted]
  rcases h.ends with ⟨-, hwritten, hfront⟩ | ⟨hwhy, hwritten, hfront⟩
  · rw [hfront, hwritten, List.append_assoc, ← List.append_assoc (List.take _ _),
      List.take_append_drop, List.append_assoc]
  · have hzero : c.takes = 0 := hwhy.resolve_right hbreak
    rw [hzero, hfront, hwritten, List.take_zero, List.append_nil, List.append_nil]

/-- After the transport has broken off, a byte is accepted twice as soon as any byte is. -/
theorem torn_sublist_iff {done : List α} {s : StreamNet α} (h : Torn done s)
    {ops : List (SendOp α)} (hnodup : (done ++ (ops.map SendOp.payload).flatten).Nodup) :
    ∃ calls s', sendCalls s ops = some (calls, s') ∧
      (s'.io.accepted.Sublist (done ++ written calls) ↔ ∀ c ∈ calls, c.takes = 0) := by
  induction ops generalizing s done with
  | nil =>
    refine ⟨[], s, rfl, fun _ => by simp, fun _ => ?_⟩
    show s.io.accepted.Sublist (done ++ [])
    rw [List.append_nil]
    exact h.accepted.sublist
  | cons op ops ih =>
    obtain ⟨rc, s₁, hcall, hstep⟩ := sendCall_step h.sending h.buffered op
    have hbuf₁ : 0 < s₁.sbuf.size := by
      have hsize : s₁.sbuf.size = s.sbuf.size := hstep.size_eq
      rw [hsize]
      exact h.buffered
    set c : SendCall α := ⟨s, op, rc, s₁⟩ with hc
    have hacc : s₁.io.accepted = s.io.accepted ++ s.sbuf.front.take c.takes := hstep.accepted
    obtain ⟨x, rest, hfront, hx⟩ := h.again
    have hnodup' : (done ++ op.payload ++ (ops.map SendOp.payload).flatten).Nodup := by
      rw [List.append_assoc]
      exact hnodup
    have hwritten : c.written.Sublist op.payload := c.written_sublist
    by_cases hzero : c.takes = 0
    · -- nothing is taken: the stream stays as it is, up to a payload at the end of the buffer
      have hsame : s₁.io.accepted = s.io.accepted := by
        rw [hacc, hzero, List.take_zero, List.append_nil]
      have hfront₁ : ∃ rest', s₁.sbuf.front = x :: rest' := by
        rcases hstep.ends with ⟨-, -, hf⟩ | ⟨-, -, hf⟩
        · refine ⟨rest ++ op.payload, ?_⟩
          have hf' : s₁.sbuf.front = s.sbuf.front.drop c.takes ++ op.payload := hf
          rw [hf', hzero, List.drop_zero, hfront, List.cons_append]
        · exact ⟨rest, by rw [← hfront]; exact hf⟩
      obtain ⟨rest', hfront₁⟩ := hfront₁
      have htorn : Torn (done ++ c.written) s₁ := by
        refine ⟨hstep.sending, hbuf₁, ?_, x, rest', hfront₁, by rw [hsame]; exact hx⟩
        rw [hsame]
        exact h.accepted.trans (List.prefix_append _ _)
      have hnd : (done ++ c.written ++ (ops.map SendOp.payload).flatten).Nodup :=
        (((List.Sublist.refl done).append hwritten).append (List.Sublist.refl _)).nodup hnodup'
      obtain ⟨calls, s', hrun, hiff⟩ := ih htorn hnd
      refine ⟨_, s', sendCalls_cons hcall hrun, ?_⟩
      rw [append_written_cons, hiff, List.forall_mem_cons]
      exact ⟨fun hall => ⟨hzero, hall⟩, fun hall => hall.2⟩
    · -- the first byte of the buffer is taken, and it has been accepted before
      obtain ⟨calls, s', hrun, hpre, hsub⟩ := sendCalls_total hstep.sending hbuf₁ ops
      refine ⟨_, s', sendCalls_cons hcall hrun, ?_, ?_⟩
      · intro hsubl
        exfalso
        rw [append_written_cons] at hsubl
        have hnd : (done ++ c.written ++ written calls).Nodup :=
          (((List.Sublist.refl done).append hwritten).append hsub).nodup hnodup'
        have hnd₁ : s₁.io.accepted.Nodup := hpre.sublist.nodup (hsubl.nodup hnd)
        rw [hacc] at hnd₁
        have hagain : x ∈ s.sbuf.front.take c.takes := by
          obtain ⟨k, hk⟩ := Nat.exists_eq_succ_of_ne_zero hzero
          rw [hfront, hk, List.take_succ_cons]
          exact List.mem_cons_self
        exact (List.nodup_append.mp hnd₁).2.2 x hx x hagain rfl
      · intro hall
        exact absurd (hall c List.mem_cons_self) hzero

/-- **When the transport gets every byte at most once**, for payloads of pairwise different bytes:
when it takes nothing more after it has broken off. -/
theorem sendCalls_sublist_iff {done : List α} {s : StreamNet α} (hs : s.sbuf.Sending)
    (hbuf : 0 < s.sbuf.size) (hlog : s.log = done) {ops : List (SendOp α)}
    (hnodup : (done ++ (ops.map SendOp.payload).flatten).Nodup) :
    ∃ calls s', sendCalls s ops = some (calls, s') ∧
      (s'.io.accepted.Sublist (done ++ written calls) ↔
        calls.Pairwise fun c d => c.BreaksOff → d.takes = 0) := by
  induction ops generalizing s done with
  | nil =>
    refine ⟨[], s, rfl, fun _ => .nil, fun _ => ?_⟩
    show s.io.accepted.Sublist (done ++ [])
    rw [List.append_nil, ← hlog]
    exact List.sublist_append_left _ _
  | cons op ops ih =>
    obtain ⟨rc, s₁, hcall, hstep⟩ := sendCall_step hs hbuf op
    have hbuf₁ : 0 < s₁.sbuf.size := by
      have hsize : s₁.sbuf.size = s.sbuf.size := hstep.size_eq
      rw [hsize]
      exact hbuf
    set c : SendCall α := ⟨s, op, rc, s₁⟩ with hc
    have hnodup' : (done ++ op.payload ++ (ops.map SendOp.payload).flatten).Nodup := by
      rw [List.append_assoc]
      exact hnodup
    by_cases hbreak : c.BreaksOff
    · -- from here on the stream is torn
      obtain ⟨htorn, hwr⟩ := hstep.torn hs hbuf₁ hbreak
      have htorn : Torn done s₁ := hlog ▸ htorn
      have hnd : (done ++ (ops.map SendOp.payload).flatten).Nodup :=
        ((List.sublist_append_left done op.payload).append (List.Sublist.refl _)).nodup hnodup'
      obtain ⟨calls, s', hrun, hiff⟩ := torn_sublist_iff htorn hnd
      refine ⟨_, s', sendCalls_cons hcall hrun, ?_⟩
      rw [append_written_cons, hwr, List.append_nil, hiff, List.pairwise_cons]
      constructor
      · intro hall
        refine ⟨fun d hd _ => hall d hd, ?_⟩
        exact List.pairwise_of_forall_mem_list fun _ _ d hd _ => hall d hd
      · intro hpair d hd
        exact hpair.1 d hd hbreak
    · -- the buffer went out as a whole or not at all
      have hlog₁ : s₁.log = done ++ c.written := by
        rw [← hlog]
        exact hstep.log_eq hbreak
      have hwritten : c.written.Sublist op.payload := c.written_sublist
      have hnd : (done ++ c.written ++ (ops.map SendOp.payload).flatten).Nodup :=
        (((List.Sublist.refl done).append hwritten).append (List.Sublist.refl _)).nodup hnodup'
      obtain ⟨calls, s', hrun, hiff⟩ := ih hstep.sending hbuf₁ hlog₁ hnd
      refine ⟨_, s', sendCalls_cons hcall hrun, ?_⟩
      rw [append_written_cons, hiff, List.pairwise_cons]
      exact ⟨fun hpair => ⟨fun _ _ h => absurd h hbreak, hpair⟩, fun hpair => hpair.2⟩

/-! Bytes with their places: the bytes of all payloads are numbered through, from `n` on. -/

def numberIov : Nat → List (List UInt8) → List (List (UInt8 × Nat))
  | _, [] => []
  | n, v :: iov => v.zipIdx n :: numberIov (n + v.length) iov

def SendOp.number (n : Nat) : SendOp UInt8 → SendOp (UInt8 × Nat)
  | .send buf => .send (buf.zipIdx n)
  | .sendv iov => .sendv (numberIov n iov)
  | .flush => .flush

def numberOps : Nat → List (SendOp UInt8) → List (SendOp (UInt8 × Nat))
  | _, [] => []
  | n, op :: ops => op.number n :: numberOps (n + op.payload.length) ops

/-- Numbering goes through the entries of a vector, ... -/
theorem numberIov_flatten (n : Nat) (iov : List (List UInt8)) :
    (numberIov n iov).flatten = iov.flatten.zipIdx n := by
  induction iov generalizing n with
  | nil => rfl
  | cons v iov ih => rw [numberIov, List.flatten_cons, ih, List.flatten_cons, List.zipIdx_append]

/-- ... through a payload, ... -/
theorem SendOp.number_payload (n : Nat) (op : SendOp UInt8) :
    (op.number n).payload = op.payload.zipIdx n := by
  cases op with
  | send buf | flush => rfl
  | sendv iov => exact numberIov_flatten n iov

/-- ... and through all the payloads of a run. -/
theorem numberOps_payloads (n : Nat) (ops : List (SendOp UInt8)) :
    ((numberOps n ops).map SendOp.payload).flatten =
      (ops.map SendOp.payload).flatten.zipIdx n := by
  induction ops generalizing n with
  | nil => rfl
  | cons op ops ih =>
    rw [numberOps, List.map_cons, List.flatten_cons, ih, SendOp.number_payload, List.map_cons,
      List.flatten_cons, List.zipIdx_append]

/-- **A failed send and duplication.**  On a buffered stream the transport gets the bytes of the
accepted payloads in order and none of them twice, exactly if it takes nothing more after it has
broken off in the middle of the buffer.  A send that fails in the middle of the buffer leaves all of
the buffer in place, with the front part already sent.  Whatever is taken after that begins with the
front part again. -/
theorem sendCalls_no_duplication_iff {sblock : List (UInt8 × Nat)} (hbuf : 0 < sblock.length)
    (rblock incoming : List (UInt8 × Nat)) (txv : Bool) (iovmax : Nat) (move : Nat → Move)
    (ops : List (SendOp UInt8)) :
    ∃ calls s', sendCalls (.fresh sblock rblock incoming txv iovmax move) (numberOps 0 ops) =
        some (calls, s') ∧
      (s'.io.accepted.Sublist (written calls) ↔
        calls.Pairwise fun c d => c.BreaksOff → d.takes = 0) := by
  have hnodup : ([] ++ ((numberOps 0 ops).map SendOp.payload).flatten).Nodup := by
    rw [List.nil_append, numberOps_payloads]
    apply List.Nodup.of_map Prod.snd
    rw [List.zipIdx_map_snd]
    exact List.nodup_range'
  have hlog : (StreamNet.fresh sblock rblock incoming txv iovmax move).log = [] := by
    show [] ++ (tntIobInit sblock txv).front = []
    rw [tntIobInit_front, List.append_nil]
  exact sendCalls_sublist_iff ⟨(tntIobInit_wf sblock txv).sized, Nat.zero_le _⟩ hbuf hlog hnodup

instance (c : SendCall α) : Decidable c.BreaksOff := inferInstanceAs (Decidable (_ ∧ _))

/-- A flush that times out before any byte is taken can be repeated. -/
theorem sendCalls_no_duplication_retry :
    ∃ calls s', sendCalls (.fresh [(0, 0), (0, 0)] [] [] false 16
        fun n => if n = 0 then .fail 11 else .take 1)
        (numberOps 0 [.send [7, 8], .flush, .flush]) = some (calls, s') ∧
      calls.map SendCall.rc = [2, -1, 2] ∧ s'.io.accepted.Sublist (written calls) := by
  obtain ⟨calls, s', hrun, hiff⟩ := @sendCalls_no_duplication_iff [(0, 0), (0, 0)] (by decide)
    [] [] false 16 (fun n => if n = 0 then .fail 11 else .take 1) [.send [7, 8], .flush, .flush]
  obtain ⟨rfl, rfl⟩ := Prod.mk.inj (Option.some.inj hrun)
  exact ⟨_, _, hrun, by decide, hiff.mpr (by decide)⟩

/-- A flush that times out after one byte has been taken sends this byte again. -/
theorem sendCalls_duplicates :
    ∃ calls s', sendCalls (.fresh [(0, 0), (0, 0)] [] [] false 16
        fun n => if n = 1 then .fail 11 else .take 0)
        (numberOps 0 [.send [7, 8], .flush, .flush]) = some (calls, s') ∧
      calls.map SendCall.rc = [2, -1, 2] ∧ s'.io.accepted = [(7, 0), (7, 0), (8, 1)] ∧
      ¬ s'.io.accepted.Sublist (written calls) :=
  ⟨_, _, rfl, by decide, by decide, by decide⟩

end TarantoolC.Io
