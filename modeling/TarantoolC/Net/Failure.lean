/-
# TarantoolC.Net.Failure — a reply that could not be received.

`tnt_net_reply` looks at the reply to decide whether a request has been answered.  When receiving
has failed, `tnt_reply_from` has cleared the reply, and a cleared reply looks like a final one: no
error, and no `TNT_CHUNK` in its code.  So every failure takes a request off the counter
(`tntNetReply_forgets`), and the reply that arrives after it is not waited for.

The theorem is about one call, for a stream in any state, a transport that does anything and a
receive that fails at either of the two points: then `wrcnt` has gone down by one (unless it was 0),
nothing was consumed as a reply, and a client that trusts the counter ends one reply too early.  A
receive timeout is the usual cause: the reply is only late.
-/
import TarantoolC.Net

namespace TarantoolC.Net

open MsgPack Proto Reply Io

section Failure

variable [Msgpuck] {alloc : Nat → Bool}

/-- The two points at which receiving a reply can fail: in the length, and in the announced
bytes. -/
inductive RecvFails (alloc : Nat → Bool) (net : StreamNet UInt8) : StreamNet UInt8 → Prop
  | length {bs : Bytes} {net' : StreamNet UInt8}
      (h : tntIoRecv net iprotoHdrSize = some (-1, bs, net')) : RecvFails alloc net net'
  | package {rc : Int} {length bs : Bytes} {net₁ net' : StreamNet UInt8} {size q : Nat}
      (h : tntIoRecv net iprotoHdrSize = some (rc, length, net₁)) (hrc : rc ≠ -1)
      (htype : expectType length 0 .uint = .ok ()) (hsize : decodeUintAt length 0 = .ok (size, q))
      (halloc : alloc size = true) (h' : tntIoRecv net₁ size = some (-1, bs, net')) :
      RecvFails alloc net net'

/-- Both go through the rollback. -/
theorem RecvFails.rollback {net net' : StreamNet UInt8} (h : RecvFails alloc net net') :
    tntReplyFrom alloc tntIoRecv net = some (-1, zeroReply, net') := by
  cases h with
  | length h => simp [tntReplyFrom, h]
  | package h hrc htype hsize halloc h' =>
    simp [tntReplyFrom, h, hrc, htype, hsize, halloc, h']

/-- **Every failed receive takes a request off the counter**, although no reply was consumed.  If it
was the last one, the next call of an iterator says that there are no more replies and reads
nothing.  The function looks at the reply whether it could be received or not.  After that the
counter is no longer the number of replies to come, and nothing in the stream tells: that is the
difference to `TarantoolC.Accounting`, where no receive fails. -/
theorem tntNetReply_forgets {s : TntStream} (hpos : s.wrcnt ≠ 0) (hlt : s.wrcnt < 2 ^ 32)
    {net' : StreamNet UInt8} (h : RecvFails alloc s.net net') (r : TntReply) :
    ∃ s', tntNetReply alloc s r = some (-1, zeroReply, s') ∧ s'.net = net' ∧
      s'.wrcnt = s.wrcnt - 1 ∧ s'.wrcnt ≠ s.wrcnt ∧
      (s.wrcnt = 1 → ∀ it, tntNext alloc it s' = some (0, { it with r := zeroReply }, s')) := by
  set failed : TntStream := { s with net := net' } with hfailed
  have hdown : failed.countDown.wrcnt = s.wrcnt - 1 := countDown_wrcnt hpos hlt
  -- what the rollback leaves passes the test for a final reply
  have hfinal : zeroReply.error.isSome ∨ zeroReply.code &&& tntChunk = 0 := .inr rfl
  refine ⟨failed.countDown, ?_, rfl, hdown, by omega, ?_⟩
  · simp only [tntNetReply, if_neg hpos, h.rollback, bind, Option.bind_some, if_pos hfinal, ← hfailed]
  · intro hone it
    have hzero : failed.countDown.wrcnt = 0 := by omega
    simp [tntNext, tntNetReply, hzero]

end Failure

/-- A request is outstanding, its answer has arrived; the first receive times out, the others do
not. -/
def timedOut : TntStream where
  wrcnt := 1
  reqid := 1
  net := .fresh [] [] (replyWire errorHdr (some errorBody)) false 16
    fun n => if n = 0 then .fail 11 else .take 63

/-- The call that times out is the last one that looks for the answer. -/
theorem tntNetReply_forgets_timeout :
    ∃ s', @tntNetReply Msgpuck.reference (fun _ => true) timedOut zeroReply =
        some (-1, zeroReply, s') ∧ s'.wrcnt = 0 := by
  have hfails : @RecvFails Msgpuck.reference (fun _ => true) timedOut.net _ :=
    @RecvFails.length Msgpuck.reference _ _ [] _ rfl
  obtain ⟨s', hreply, -, hcount, -⟩ := @tntNetReply_forgets Msgpuck.reference (fun _ => true) timedOut
    (by decide) (by decide) _ hfails zeroReply
  exact ⟨s', hreply, hcount⟩

/-- The answer is still there when the iterator says that there is none. -/
theorem tntNetReply_timeout_ends :
    ∃ s', @tntNetReply Msgpuck.reference (fun _ => true) timedOut zeroReply =
        some (-1, zeroReply, s') ∧ timedOut.wrcnt = 1 ∧ s'.wrcnt = 0 ∧
      s'.net.io.incoming = replyWire errorHdr (some errorBody) ∧
      @tntNext Msgpuck.reference (fun _ => true) tntIterReply s' = some (0, tntIterReply, s') :=
  ⟨_, rfl, rfl, rfl, rfl, rfl⟩

end TarantoolC.Net
