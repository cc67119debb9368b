/-
# TarantoolC.Reply.Feed — reading a message piece by piece.

`tnt_reply` and `tnt_reply0` may be called on the first bytes of a message: they return 1 and say in
`*off` how many bytes to append before the next call.  The number has two meanings.  As long as the
length prefix is not there it is what the prefix still needs; then it is what the message still
needs.

`tntReply_feeds`: the answer for every cut of every message, and the loop that appends and calls
again (`feed`): it stops with exactly the message, after at most two reads.

The messages are those of a server: a prefix of five bytes and any payload it announces.  The
payload is not parsed by these calls as long as it is not all there, so nothing is asked of it.
-/
import TarantoolC.Reply.Copy

namespace TarantoolC.Reply

open MsgPack Msgpuck Proto

/-! ## §1 — the calls.

Both functions on a string that is too short, and without a reply to fill. -/

section Code

variable [Msgpuck]

/-- `tnt_reply` and `tnt_reply0`, with `r` equal to `NULL`: the return value, and `*off` if it is
written. -/
def tntReplyNull (buf : Bytes) : Option (Int × Option Nat) :=
  match tntReplyLen buf with
  | .undef => none
  | .fail => some (-1, none)
  | .ok (rv, length) => some (rv, some length)

/-- The ways to ask how many bytes are missing. -/
inductive Asking where
  | reply (alloc : Nat → Bool) (r : TntReply)
  | reply0 (r : TntReply)
  | null

/-- The return value and `*off`. -/
def Asking.call : Asking → Bytes → Option (Int × Option Nat)
  | .reply alloc r, buf => (tntReply alloc r buf).map fun (rv, _, off) => (rv, off)
  | .reply0 r, buf => (tntReply0 r buf).map fun (rv, _, off) => (rv, off)
  | .null, buf => tntReplyNull buf

/-- The loop of a reader: as long as the call returns 1, `*off` more bytes of the source are
appended.  The numbers of bytes it has read, what it holds in the end, and what is left of the
source; `none` if the source ends before. -/
def feed (ask : Asking) : Nat → Bytes → Bytes → Option (List Nat × Bytes × Bytes)
  | 0, _, _ => none
  | fuel + 1, buf, source =>
    match ask.call buf with
    | some (1, some n) =>
      if source.length < n then none
      else do
        let (ns, buf, source) ← feed ask fuel (buf ++ source.take n) (source.drop n)
        return (n :: ns, buf, source)
    | _ => some ([], buf, source)

end Code

/-! ## §2 — messages.

A prefix of five bytes and a payload; the cuts are at any byte of either. -/

/-- A message with a length prefix of five bytes. -/
def message (payload : Bytes) : Bytes := 0xce :: be 4 payload.length ++ payload

/-- What the first `k` bytes of a message of `n` bytes lack: the prefix first. -/
def missing (n k : Nat) : Nat := if k < iprotoHdrSize then iprotoHdrSize - k else n - k

/-- Five bytes more than the payload. -/
theorem message_length (payload : Bytes) : (message payload).length = 5 + payload.length := by
  simp only [message, List.length_append, List.length_cons, be_length]

/-- The first bytes of a message, from the prefix on. -/
theorem message_take {payload : Bytes} {k : Nat} (hk : 5 ≤ k) :
    (message payload).take k = 0xce :: be 4 payload.length ++ payload.take (k - 5) := by
  have hfive : (0xce :: be 4 payload.length).length = 5 := by simp
  rw [message, List.take_append, hfive, List.take_of_length_le (by rw [hfive]; exact hk)]

section Cuts

variable [Msgpuck] {payload : Bytes} (hlen : payload.length < 2 ^ 32)

include hlen in
/-- `tnt_reply_len` at a cut. -/
theorem tntReplyLen_cut {k : Nat} (hk : k < (message payload).length) :
    tntReplyLen ((message payload).take k) = .ok (1, missing (message payload).length k) := by
  have hcut : ((message payload).take k).length = k := List.length_take_of_le (by omega)
  rw [tntReplyLen, missing, hcut]
  by_cases hshort : k < iprotoHdrSize
  · rw [if_pos hshort, if_pos hshort]
  · -- the prefix is there, and it announces more than there is
    have hfive : 5 ≤ k := Nat.le_of_not_lt hshort
    have htype := expectType_five (payload.take (k - 5)) hlen
    have hdec := decodeUintAt_five (payload.take (k - 5)) hlen
    rw [← message_take hfive] at htype hdec
    have hmod : (payload.length + iprotoHdrSize) % 2 ^ 64 = (message payload).length := by
      rw [message_length, iprotoHdrSize, Nat.mod_eq_of_lt (by omega)]
      omega
    rw [if_neg hshort, if_neg hshort]
    simp only [htype, hdec, Outcome.ok_bind, hmod, if_pos hk]

include hlen in
/-- ... and on a message with anything behind it. -/
theorem tntReplyLen_whole (more : Bytes) :
    tntReplyLen (message payload ++ more) = .ok (0, (message payload).length) := by
  rw [message, List.append_assoc, tntReplyLen_spec payload hlen more, ← message_length, message]

/-- A parsed message does not ask for more. -/
theorem tntReplyFrom_rv {σ : Type} {alloc : Nat → Bool} {rcv : σ → Nat → Option (Int × Bytes × σ)}
    {s s' : σ} {rv : Int} {r : TntReply} (h : tntReplyFrom alloc rcv s = some (rv, r, s')) :
    rv = 0 ∨ rv = -1 := by
  unfold tntReplyFrom at h
  simp only [bind, Option.bind_eq_some_iff, pure] at h
  obtain ⟨⟨rc, length, s₁⟩, -, h⟩ := h
  split at h
  · exact .inr (Prod.mk.inj (Option.some.inj h)).1.symm
  split at h
  · exact absurd h (by simp)
  · exact .inr (Prod.mk.inj (Option.some.inj h)).1.symm
  split at h
  · exact .inr (Prod.mk.inj (Option.some.inj h)).1.symm
  simp only [Option.bind_eq_some_iff] at h
  obtain ⟨⟨rc', buf, s₂⟩, -, h⟩ := h
  split at h
  · exact .inr (Prod.mk.inj (Option.some.inj h)).1.symm
  split at h
  · exact absurd h (by simp)
  split at h
  · exact absurd h (by simp)
  · exact .inr (Prod.mk.inj (Option.some.inj h)).1.symm
  · exact .inl (Prod.mk.inj (Option.some.inj h)).1.symm

include hlen in
/-- At a cut every call asks for what is missing. -/
theorem Asking.call_cut (ask : Asking) {k : Nat} (hk : k < (message payload).length) :
    ask.call ((message payload).take k) = some (1, some (missing (message payload).length k)) := by
  have hl := tntReplyLen_cut hlen hk
  cases ask with
  | reply alloc r => simp [Asking.call, tntReply, hl]
  | reply0 r => simp [Asking.call, tntReply0, hl]
  | null => simp [Asking.call, tntReplyNull, hl]

include hlen in
/-- On the message no call asks for more. -/
theorem Asking.call_whole (ask : Asking) (n : Nat) :
    ask.call (message payload) ≠ some (1, some n) := by
  have hl := tntReplyLen_whole hlen []
  rw [List.append_nil] at hl
  intro hcall
  cases ask with
  | reply alloc r =>
    simp only [Asking.call, tntReply, hl, Option.map_eq_some_iff] at hcall
    obtain ⟨⟨rv, r', off⟩, hcall, heq⟩ := hcall
    simp only [show ¬ (0 : Int) = 1 by decide, if_false, bind, Option.bind_eq_some_iff, pure] at hcall
    obtain ⟨⟨rc, r'', offv⟩, hfrom, hend⟩ := hcall
    -- the parser behind the length returns 0 or -1
    have hrc := tntReplyFrom_rv hfrom
    have hsame : rc = 1 := (Prod.mk.inj (Option.some.inj hend)).1.trans (Prod.mk.inj heq).1
    omega
  | reply0 r =>
    rw [Asking.call, message, ← List.append_nil payload, List.length_append, List.length_nil,
      Nat.add_zero, tntReply0_frame r payload hlen []] at hcall
    obtain ⟨⟨rv, r', off⟩, hcall, heq⟩ := Option.map_eq_some_iff.mp hcall
    obtain rfl : rv = 1 := (Prod.mk.inj heq).1
    split at hcall
    · exact absurd hcall (by simp)
    · exact absurd (Prod.mk.inj (Option.some.inj hcall)).1 (by decide)
    split at hcall
    · split at hcall
      · exact absurd hcall (by simp)
      · exact absurd (Prod.mk.inj (Option.some.inj hcall)).1 (by decide)
      · exact absurd (Prod.mk.inj (Option.some.inj hcall)).1 (by decide)
    · exact absurd (Prod.mk.inj (Option.some.inj hcall)).1 (by decide)
  | null =>
    simp only [Asking.call, tntReplyNull, hl, Option.some.injEq, Prod.mk.injEq] at hcall
    exact absurd hcall.1 (by decide)

/-! ## §3 — the loop.

The two steps in a row: at most one for the prefix and one for the message. -/

include hlen in
/-- The loop ends when the message is there. -/
theorem feed_done (ask : Asking) (fuel : Nat) (more : Bytes) :
    feed ask (fuel + 1) (message payload) more = some ([], message payload, more) := by
  have hnot := ask.call_whole hlen
  rw [feed]
  split
  · next n hcall => exact absurd hcall (hnot n)
  · rfl

include hlen in
/-- One turn of the loop: from one cut to the next, or to the end. -/
theorem feed_step (ask : Asking) (fuel : Nat) {k : Nat} (hk : k < (message payload).length)
    (more : Bytes) :
    let n := missing (message payload).length k
    feed ask (fuel + 1) ((message payload).take k) ((message payload).drop k ++ more) =
      (feed ask fuel ((message payload).take (k + n)) ((message payload).drop (k + n) ++ more)).map
        fun p => (n :: p.1, p.2) := by
  intro n
  have hfits : n ≤ ((message payload).drop k).length := by
    have hfive := message_length payload
    rw [List.length_drop]
    show missing _ k ≤ _
    unfold missing iprotoHdrSize
    split <;> omega
  have hsource : ¬ ((message payload).drop k ++ more).length < n := by
    rw [List.length_append]
    omega
  rw [feed, ask.call_cut hlen hk]
  show (if ((message payload).drop k ++ more).length < n then none else _) = _
  rw [if_neg hsource, List.take_append_of_le_length hfits, List.drop_append_of_le_length hfits,
    ← List.take_add, List.drop_drop]
  cases feed ask fuel _ _ <;> rfl

include hlen in
/-- **Reading piece by piece.**  At every cut of every message `tnt_reply` and `tnt_reply0` ask for
the bytes that are missing, of the prefix first and then of the message, and leave the reply alone;
the loop that appends these bytes and calls again reads at most twice, something each time, and
stops with exactly the message, whatever follows it; and a call without a reply finds the message's
end.  The step is what one call says at one cut; the loop is an induction on the bytes that are
missing, and there are two steps because there are two meanings of `*off`. -/
theorem tntReply_feeds :
    (∀ k < (message payload).length, ∀ (alloc : Nat → Bool) (r : TntReply),
      tntReply alloc r ((message payload).take k) =
          some (1, r, some (missing (message payload).length k)) ∧
        tntReply0 r ((message payload).take k) =
          some (1, r, some (missing (message payload).length k))) ∧
    (∀ (ask : Asking) (k : Nat) (more : Bytes), k ≤ (message payload).length →
      ∃ ns, feed ask 3 ((message payload).take k) ((message payload).drop k ++ more) =
          some (ns, message payload, more) ∧ ns.length ≤ 2 ∧ ∀ n ∈ ns, 0 < n) ∧
    ∀ more, tntReplyNull (message payload ++ more) = some (0, some (message payload).length) := by
  refine ⟨?_, ?_, ?_⟩
  · intro k hk alloc r
    have hl := tntReplyLen_cut hlen hk
    refine ⟨?_, ?_⟩
    · simp [tntReply, hl]
    · simp [tntReply0, hl]
  · intro ask k more hk
    have hfive := message_length payload
    -- from the prefix on, one read is enough
    have hlast : ∀ fuel j, 5 ≤ j → j ≤ (message payload).length →
        ∃ ns, feed ask (fuel + 2) ((message payload).take j) ((message payload).drop j ++ more) =
          some (ns, message payload, more) ∧ ns.length ≤ 1 ∧ ∀ n ∈ ns, 0 < n := by
      intro fuel j hj hle
      rcases Nat.lt_or_eq_of_le hle with hlt | rfl
      · have hmissing : missing (message payload).length j = (message payload).length - j :=
          if_neg (Nat.not_lt.mpr hj)
        refine ⟨[(message payload).length - j], ?_, Nat.le_refl 1, ?_⟩
        · rw [feed_step hlen ask (fuel + 1) hlt, hmissing, Nat.add_sub_cancel' hle, List.take_length,
            List.drop_length, List.nil_append, feed_done hlen]
          rfl
        · intro n hn
          rw [List.mem_singleton.mp hn]
          omega
      · refine ⟨[], ?_, Nat.zero_le 1, by simp⟩
        rw [List.take_length, List.drop_length, List.nil_append, feed_done hlen]
    by_cases hshort : k < 5
    · have hmissing : missing (message payload).length k = 5 - k := if_pos hshort
      obtain ⟨ns, hrun, hcount, hpos⟩ := hlast 0 5 (Nat.le_refl 5) (by omega)
      refine ⟨(5 - k) :: ns, ?_, by rw [List.length_cons]; omega, ?_⟩
      · rw [feed_step hlen ask 2 (by omega), hmissing, Nat.add_sub_cancel' (Nat.le_of_lt hshort), hrun]
        rfl
      · intro n hn
        rcases List.mem_cons.mp hn with rfl | hn
        · omega
        · exact hpos n hn
    · obtain ⟨ns, hrun, hcount, hpos⟩ := hlast 1 k (by omega) hk
      exact ⟨ns, hrun, by omega, hpos⟩
  · intro more
    rw [tntReplyNull, tntReplyLen_whole hlen more]

end Cuts

/-- Two bytes of a message of seven: three more for the prefix, two for the payload. -/
theorem tntReply_feeds_seven :
    let r := zeroReply
    @tntReply0 Msgpuck.reference r ((message [0x80, 0x80]).take 2) = some (1, r, some 3) ∧
      @tntReplyNull Msgpuck.reference (message [0x80, 0x80] ++ [0xce]) = some (0, some 7) := by
  intro r
  have h := @tntReply_feeds Msgpuck.reference [0x80, 0x80] (by decide)
  exact ⟨(h.1 2 (by decide) (fun _ => true) r).2, h.2.2 [0xce]⟩

end TarantoolC.Reply
