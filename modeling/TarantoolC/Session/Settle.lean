/-
# TarantoolC.Session.Settle — a session does not get stuck.

From every state that a session can be in there is a way on to one in which it is at rest: every
request is with the server, every call has its final reply, nothing is outstanding.  The client makes
no further call on this way; it flushes, the bytes arrive, the server takes what is there and answers
what is open, and the client reads.  Each of these goes down with what is left to do.

## Why this is worth saying

`session_orderly` holds of a session in which nothing ever arrives.  Safety alone does not exclude
that the steps which are left cannot bring the counter down: that a request is stuck between a
buffer and an inbox, that a message cannot be taken off what has arrived, or that a reply does not
match any open request.  Here the way to the end is exhibited, from any state, with the steps the
system has anyway.

## The way

Each stage has a measure of what is left and a lemma that takes one step and makes it smaller:

* `Inv.flushes` — one flush empties the send buffer, whatever the transport lets through at a time;
* `Inv.delivers` — all that was written arrives;
* `Inv.takes` — the server takes message after message off its inbox, by induction on the number of
  bytes in it (`takeMessage_length_lt`);
* `Inv.answers` — it gives each request that is open a final reply, by induction on the list of the
  open ones.  The reply is `accepts`, a header alone, under the number the request was decoded with;
* `Inv.reads` — the client reads, by induction on what the transport still carries.

`Inv.settles` runs them one after the other, and `Inv.rests` reads the result off the invariant:
with nothing open and nothing to come the counter is 0, and then `Inv.done` says the rest.  The
replies need memory on the client's side, which is the hypothesis `halloc`.
-/
import TarantoolC.Session

namespace TarantoolC.Session

open MsgPack Msgpuck Proto Reply Io Net Request Framing Accounting

/-! ## §1 — an answer. -/

/-- How long a reply may get: an integer, ... -/
theorem encode_uint_length_le (n : Nat) : (encode (.uint n)).length ≤ 9 := by
  show (uintForm.min n).length ≤ 9
  rw [uintForm_min_length]
  split_ifs <;> omega

/-- The header of a reply without an error. -/
def acceptsHdr (sync : UInt64) : WireMap :=
  Schema.demoHdr 0 sync.toNat Schema.okCode_lt sync.toNat_lt

/-- The reply. -/
def accepts (sync : UInt64) : WireReply where
  hdr := acceptsHdr sync
  body := none
  wf := by
    refine ⟨fun w hw => ?_, fun m hm => by cases hm⟩
    rcases List.mem_cons.mp hw with rfl | hw
    · exact ⟨Or.inl rfl, 0, rfl⟩
    · rw [List.mem_singleton.mp hw]
      exact ⟨Or.inr (Or.inl rfl), sync.toNat, rfl⟩
  length_lt := by
    have hsync := encode_uint_length_le sync.toNat
    have hbytes : (acceptsHdr sync).bytes =
      [0x82, 0x00, 0x00, 0x01] ++ (encode (.uint sync.toNat) ++ []) := rfl
    rw [hbytes, List.append_nil, List.length_append]
    show 4 + (encode (.uint sync.toNat)).length + 0 < 2 ^ 32
    omega

/-- ... in a reply that is final ... -/
theorem accepts_isFinal (sync : UInt64) : (accepts sync).IsFinal := .inl rfl

/-- ... and is for the request with its number. -/
theorem accepts_sync (sync : UInt64) : lastNum .sync (accepts sync).hdr.pairs = sync.toNat := rfl

/-! ## §2 — one thing after the other. -/

section Phases

variable [Msgpuck] [Digest] {alloc : Nat → Bool} {first : UInt64} {σ : Sys}

/-- The client flushes. -/
theorem Inv.flushes (h : Inv first σ) :
    ∃ σ', Run alloc σ σ' ∧ σ'.calls = σ.calls ∧ σ'.client.s.net.sbuf.off = 0 := by
  obtain ⟨rc, net, hcall, -, ⟨-, -, hzero⟩, -⟩ :=
    @sendCall_reliable _ _ h.client.ready.sending h.client.ready.reliable .flush trivial
  have hflush : tntFlush σ.client.s = some (rc, { σ.client.s with net := net }) := by
    simp only [tntFlush, hcall, bind, Option.bind_some, pure]
  exact ⟨_, .single (.flush hflush), rfl, hzero⟩

/-- What has been given to the transport arrives. -/
theorem Inv.delivers (h : Inv first σ) (hoff : σ.client.s.net.sbuf.off = 0) :
    ∃ σ', Run alloc σ σ' ∧ σ'.calls = σ.calls ∧ σ'.delivered = σ'.client.s.net.log.length := by
  have hlog : σ.client.s.net.log = σ.client.s.net.io.accepted := by
    rw [StreamNet.log, Iob.front, hoff, List.take_zero, List.append_nil]
  have hle := h.flow.delivered_le
  rw [hlog] at hle
  have hall : σ.delivered + (σ.client.s.net.io.accepted.length - σ.delivered) =
      σ.client.s.net.io.accepted.length := by omega
  refine ⟨_, .single (.deliver (Nat.le_of_eq hall)), rfl, ?_⟩
  show σ.delivered + (σ.client.s.net.io.accepted.length - σ.delivered) = σ.client.s.net.log.length
  rw [hall, hlog]

omit [Msgpuck] [Digest] in
/-- A message that is taken is no longer there. -/
theorem takeMessage_length_lt {received package rest : Bytes}
    (h : takeMessage received = some (package, rest)) : rest.length < received.length := by
  obtain ⟨bs, rfl, henc⟩ := takeMessage_eq_some.mp h
  have hpos := henc.length_pos
  rw [List.length_append, List.length_append]
  omega

/-- The server takes the requests, one by one. -/
theorem Inv.takes (h : Inv first σ) (halloc : ∀ n, alloc n = true)
    (hend : σ.delivered = σ.client.s.net.log.length) :
    ∃ σ', Run alloc σ σ' ∧ σ'.calls = σ.calls ∧ σ'.requests = σ.calls.map Call.package := by
  induction hlen : σ.inbox.length using Nat.strong_induction_on generalizing σ with
  | _ n ih =>
    cases htake : takeMessage σ.inbox with
    | none =>
      exact ⟨σ, .refl, rfl, h.flow.all (fun c hc => (h.fits c hc).1) hend htake⟩
    | some taken =>
      obtain ⟨package, rest⟩ := taken
      have hstep : Step alloc σ _ := .take htake
      have hless : rest.length < n := by
        rw [← hlen]
        exact takeMessage_length_lt htake
      obtain ⟨σ', hrun, hcalls, hrequests⟩ := ih rest.length hless (h.step halloc hstep) hend rfl
      exact ⟨σ', .head hstep hrun, hcalls, hrequests⟩

/-- The server answers what is open. -/
theorem Inv.answers (h : Inv first σ) (halloc : ∀ n, alloc n = true)
    (hall : σ.requests = σ.calls.map Call.package) :
    ∃ σ', Run alloc σ σ' ∧ σ'.calls = σ.calls ∧ σ'.client.pending = [] := by
  induction hlen : σ.client.pending.length generalizing σ with
  | zero => exact ⟨σ, .refl, rfl, List.length_eq_zero_iff.mp hlen⟩
  | succ n ih =>
    -- any call that still waits will do: the server may answer in whatever order it likes
    obtain ⟨k, hk⟩ := List.exists_mem_of_length_pos (by omega : 0 < σ.client.pending.length)
    have hlt : k < σ.calls.length := by
      rw [h.written]
      exact h.answered.lt k hk
    have hget : σ.calls[k]? = some σ.calls[k] := List.getElem?_eq_getElem hlt
    have htaken : σ.requests[k]? = some σ.calls[k].package := by
      rw [hall, List.getElem?_map, hget]
      rfl
    obtain ⟨hfits, hacc⟩ := h.fits _ (List.getElem_mem hlt)
    obtain ⟨pairs, hreads⟩ := σ.calls[k].direct.fields_reads hfits.texts hacc
    -- the package the server took is the one written for that call, so it decodes to its fields
    have hdec : Decodes σ.calls[k].package σ.calls[k].direct.type
        (lastNum .sync (accepts σ.calls[k].sync).hdr.pairs) pairs := by
      rw [accepts_sync]
      refine packageWire_decodes _ σ.calls[k].sync.toNat_lt hreads ?_
      cases σ.calls[k].direct <;> (simp only [Direct.fields, List.length_cons, List.length_nil]; omega)
    let a : Arrival := ⟨k, accepts σ.calls[k].sync, true, accepts_isFinal _⟩
    have hstep : Step alloc σ _ := .reply (a := a) hk htaken hdec
    -- the answer takes this call, and no other, from those that wait
    have hless : (σ.client.pending.erase k).length = n := by
      rw [List.length_erase_of_mem hk]
      omega
    obtain ⟨σ', hrun, hcalls, hnone⟩ := ih (h.step halloc hstep) hall hless
    exact ⟨σ', .head hstep hrun, hcalls, hnone⟩

/-- The client reads what is there. -/
theorem Inv.reads (h : Inv first σ) (halloc : ∀ n, alloc n = true) (hnone : σ.client.pending = []) :
    ∃ σ', Run alloc σ σ' ∧ σ'.calls = σ.calls ∧ σ'.client.s.wrcnt = 0 := by
  induction hlen : σ.client.inFlight.length generalizing σ with
  | zero =>
    have hfl : σ.client.inFlight = [] := List.length_eq_zero_iff.mp hlen
    have hcount := h.client.count
    rw [hnone, hfl] at hcount
    exact ⟨σ, .refl, rfl, hcount⟩
  | succ n ih =>
    by_cases hcnt : σ.client.s.wrcnt = 0
    · exact ⟨σ, .refl, rfl, hcnt⟩
    · obtain ⟨a, l, hfl⟩ := List.exists_cons_of_length_eq_add_one hlen
      have hcome := h.client.flow
      rw [hfl] at hcome
      obtain ⟨r, s', hnext, -⟩ :=
        tntNext_spec halloc h.client.ready hcnt h.client.small hcome σ.client.it
      have hwait : σ.client.s.wrcnt ≠ 0 → σ.client.inFlight ≠ [] := fun _ => by simp [hfl]
      have hstep : Step alloc σ _ := .next hwait hnext
      have hless : (σ.client.arrived.drop (σ.client.returned ++ [r]).length).length = n := by
        have hdrop := congrArg List.length (inFlight_read hfl).1
        rw [hfl, List.length_cons] at hlen
        rw [List.length_append, List.length_singleton]
        omega
      obtain ⟨σ', hrun, hcalls, hzero⟩ := ih (h.step halloc hstep) hnone hless
      exact ⟨σ', .head hstep hrun, hcalls, hzero⟩

/-! ## §3 — to the end. -/

/-- Any state of a session comes to rest. -/
theorem Inv.settles (h : Inv first σ) (halloc : ∀ n, alloc n = true) :
    ∃ σ', Run alloc σ σ' ∧ σ'.calls = σ.calls ∧ σ'.client.s.wrcnt = 0 := by
  obtain ⟨σ₁, hrun₁, hcalls₁, hoff⟩ := @Inv.flushes _ _ alloc _ _ h
  have h₁ := h.run halloc hrun₁
  obtain ⟨σ₂, hrun₂, hcalls₂, hend⟩ := @Inv.delivers _ _ alloc _ _ h₁ hoff
  have h₂ := h₁.run halloc hrun₂
  obtain ⟨σ₃, hrun₃, hcalls₃, hall⟩ := h₂.takes halloc hend
  have h₃ := h₂.run halloc hrun₃
  rw [← hcalls₃] at hall
  obtain ⟨σ₄, hrun₄, hcalls₄, hnone⟩ := h₃.answers halloc hall
  have h₄ := h₃.run halloc hrun₄
  obtain ⟨σ₅, hrun₅, hcalls₅, hzero⟩ := h₄.reads halloc hnone
  refine ⟨σ₅, ((hrun₁.trans hrun₂).trans (hrun₃.trans hrun₄)).trans hrun₅, ?_, hzero⟩
  rw [hcalls₅, hcalls₄, hcalls₃, hcalls₂, hcalls₁]

/-- ... with every call served and answered. -/
theorem Inv.rests (h : Inv first σ) (halloc : ∀ n, alloc n = true) :
    ∃ σ', Run alloc σ σ' ∧ σ'.calls = σ.calls ∧ σ'.client.s.wrcnt = 0 ∧
      σ'.requests = σ.calls.map Call.package ∧
      ∀ k < σ.calls.length, finalsOf k σ'.client.read = 1 := by
  obtain ⟨σ', hon, hcalls, hzero⟩ := h.settles halloc
  obtain ⟨hrequests, hfinals⟩ := (h.run halloc hon).done hzero
  rw [hcalls] at hrequests hfinals
  exact ⟨σ', hon, hcalls, hzero, hrequests, hfinals⟩

end Phases

/-- **A session does not get stuck.**  From every state of every run there is a way on, with no more
calls, to a state in which nothing is outstanding: the server has the requests of all calls, and
every call its one final reply.  So `session_orderly` is not true for want of anything happening:
its last clause, about a counter of 0, is reached from everywhere. -/
theorem session_settles [Msgpuck] [Digest] {alloc : Nat → Bool} (halloc : ∀ n, alloc n = true)
    {σ₀ σ : Sys} (hstart : Start σ₀) (hrun : Run alloc σ₀ σ) :
    ∃ σ', Run alloc σ σ' ∧ σ'.calls = σ.calls ∧ σ'.client.s.wrcnt = 0 ∧
      σ'.requests = σ.calls.map Call.package ∧
      ∀ k < σ.calls.length, finalsOf k σ'.client.read = 1 := by
  have h := Run.inv halloc hstart hrun
  exact h.rests halloc

/-- A ping that has been written, and no more. -/
theorem session_settles_ping :
    ∃ σ σ', @Run Msgpuck.reference zeroDigest (fun _ => true) pingStart σ ∧ σ.client.s.wrcnt = 1 ∧
      @Run Msgpuck.reference zeroDigest (fun _ => true) σ σ' ∧ σ'.client.s.wrcnt = 0 ∧
      finalsOf 0 σ'.client.read = 1 := by
  let _ := Msgpuck.reference
  let _ := zeroDigest
  have hcall := @Step.call Msgpuck.reference zeroDigest (fun _ => true) pingStart .ping _ 11 pingSent
    ⟨trivial, by decide⟩ (by decide) rfl rfl (by decide)
  obtain ⟨σ', hrun, -, hzero, -, hfinals⟩ :=
    session_settles (fun _ => rfl) pingStart_start (.single hcall)
  exact ⟨_, σ', .single hcall, rfl, hrun, hzero, hfinals 0 Nat.one_pos⟩

end TarantoolC.Session
