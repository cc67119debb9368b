/-
# TarantoolC.Accounting — outstanding requests, over whole runs of a client and its server.

The system is a network stream with its reply iterator, and a server.  The client writes, flushes
and calls `tnt_next`, in any mixture; the server answers a request by any number of chunks and then
one final reply, the answers to different requests interleaved as it likes.  A reply that has been
sent and not been read is IN FLIGHT.

`accounted` is the result: in every state of every run `wrcnt` is the number of requests whose final
reply has not been read, and the iterator therefore waits exactly as long as there is something to
wait for.

An event is a call of the client or a reply from the server.  Writes that fail (a send buffer too
small, a transport that gives up) are events as well; they do not count, and the server never sees
them.  The server is not modelled by code: it may send any reply to any request that was written and
has had no final one, chunks included, so that every order a real server can choose is among the
runs.

The invariant (`Inv`) splits what the server has sent into what the iterator has returned and what
is in flight, in their order.  The one number that is modular is `wrcnt`, a `uint32_t`: as long as
fewer than `2 ^ 32` requests are outstanding it is their number.
-/
import TarantoolC.Net

namespace TarantoolC.Accounting

open MsgPack Proto Reply Io Net

/-! ## §1 — the system. -/

/-- A reply that the server has sent: to which request, and whether it is the final one. -/
structure Arrival where
  request : Nat
  reply : WireReply
  final : Bool
  kind : if final then reply.IsFinal else reply.IsChunk

/-- The client (`s`, `it`) and what has happened so far: requests `0 … written - 1` have been
written, those in `pending` have no final reply yet, `arrived` has been sent and `returned` has been
handed out by `tnt_next`. -/
structure Sys where
  s : TntStream
  it : IterReply
  written : Nat
  pending : List Nat
  arrived : List Arrival
  returned : List TntReply

namespace Sys

/-- The replies the client has read. -/
def read (σ : Sys) : List Arrival := σ.arrived.take σ.returned.length

/-- The replies the client has not read yet. -/
def inFlight (σ : Sys) : List Arrival := σ.arrived.drop σ.returned.length

end Sys

def finals (l : List Arrival) : Nat := l.countP Arrival.final

def wires (l : List Arrival) : Bytes := (l.map fun a => a.reply.bytes).flatten

section System

variable [Msgpuck] (alloc : Nat → Bool)

/-- One event.  A write (`tnt_net_write` or `tnt_net_writev`) counts if it succeeds.  A call of
`tnt_next` that has to receive comes back when a reply is there. -/
inductive Step : Sys → Sys → Prop
  | write {σ : Sys} {op : SendOp UInt8} {rc : Int} {s' : TntStream}
      (hop : op ≠ .flush) (hsmall : σ.written + 1 < finals σ.read + 2 ^ 32)
      (hcall : netWrite op σ.s = some (rc, s')) (hok : rc ≠ -1) :
      Step σ { σ with
        s := s'
        written := σ.written + 1
        pending := σ.pending ++ [σ.written] }
  | flush {σ : Sys} {rc : Int} {s' : TntStream} (hcall : tntFlush σ.s = some (rc, s')) :
      Step σ { σ with s := s' }
  | chunk {σ : Sys} {a : Arrival} (hreq : a.request ∈ σ.pending) (hkind : a.final = false) :
      Step σ { σ with
        s := { σ.s with net := arrive σ.s.net a.reply.bytes }
        arrived := σ.arrived ++ [a] }
  | final {σ : Sys} {a : Arrival} (hreq : a.request ∈ σ.pending) (hkind : a.final = true) :
      Step σ { σ with
        s := { σ.s with net := arrive σ.s.net a.reply.bytes }
        pending := σ.pending.erase a.request
        arrived := σ.arrived ++ [a] }
  | next {σ : Sys} {rv : Int} {it' : IterReply} {s' : TntStream}
      (hwait : σ.s.wrcnt ≠ 0 → σ.inFlight ≠ [])
      (hcall : tntNext alloc σ.it σ.s = some (rv, it', s')) :
      Step σ { σ with
        s := s'
        it := it'
        returned := if rv = 0 then σ.returned else σ.returned ++ [it'.r] }

/-- Any number of events. -/
def Run : Sys → Sys → Prop := Relation.ReflTransGen (Step alloc)

end System

/-- A connected stream with nothing outstanding, and an iterator on it. -/
structure Start (σ : Sys) : Prop where
  ready : Ready σ.s.net
  toCome : σ.s.net.toCome = []
  wrcnt : σ.s.wrcnt = 0
  status : σ.it.status = .ok
  written : σ.written = 0
  pending : σ.pending = []
  arrived : σ.arrived = []
  returned : σ.returned = []

/-! ## §2 — the invariant.

What has been sent is what has been read and what is in flight; what is in flight is what is to
come; and the counter is the number of requests without a final reply that was read. -/

/-- What holds in every state. -/
structure Inv (σ : Sys) : Prop where
  ready : Ready σ.s.net
  status : σ.it.status = .ok
  /-- The bytes to come are the replies in flight. -/
  flow : σ.s.net.toCome = wires σ.inFlight
  small : σ.s.wrcnt < 2 ^ 32
  count : σ.s.wrcnt = σ.pending.length + finals σ.inFlight
  total : σ.s.wrcnt + finals σ.read = σ.written
  told : List.Forall₂ (fun a r => a.reply.ReadAs r) σ.read σ.returned
  /-- No chunk comes behind the last final reply. -/
  last : σ.pending = [] → ∀ a, σ.arrived.getLast? = some a → a.final = true

/-- Final replies are counted piece by piece, ... -/
theorem finals_append (l l' : List Arrival) : finals (l ++ l') = finals l + finals l' :=
  List.countP_append

/-- ... one by one, ... -/
@[simp] theorem finals_singleton (a : Arrival) : finals [a] = if a.final then 1 else 0 := by
  simp [finals, List.countP_cons]

/-- ... from the front. -/
theorem finals_cons (a : Arrival) (l : List Arrival) :
    finals (a :: l) = (if a.final then 1 else 0) + finals l := by
  rw [← List.singleton_append, finals_append, finals_singleton]

/-- So are the bytes of replies, ... -/
theorem wires_append (l l' : List Arrival) : wires (l ++ l') = wires l ++ wires l' := by
  simp [wires]

/-- ... from the front. -/
theorem wires_cons (a : Arrival) (l : List Arrival) :
    wires (a :: l) = a.reply.bytes ++ wires l := rfl

/-- No more replies are returned than have arrived. -/
theorem Inv.returned_le {σ : Sys} (h : Inv σ) : σ.returned.length ≤ σ.arrived.length := by
  have hlen := h.told.length_eq
  rw [Sys.read, List.length_take] at hlen
  omega

/-- The last reply in flight is a final one, once every request has its final reply. -/
theorem Inv.last_inFlight {σ : Sys} (h : Inv σ) (hp : σ.pending = []) {a : Arrival}
    (ha : σ.inFlight.getLast? = some a) : a.final = true := by
  refine h.last hp a ?_
  have hsplit : σ.arrived = σ.read ++ σ.inFlight := (List.take_append_drop _ _).symm
  rw [hsplit, List.getLast?_append, ha]
  rfl

/-- A list that ends in a final reply has one. -/
theorem finals_pos_of_last {l : List Arrival} (hne : l ≠ [])
    (hlast : ∀ a, l.getLast? = some a → a.final = true) : 0 < finals l := by
  have hmem : l.getLast hne ∈ l := List.getLast_mem hne
  have hfinal := hlast _ (List.getLast?_eq_some_getLast hne)
  exact List.countP_pos_iff.mpr ⟨_, hmem, hfinal⟩

/-- Nothing outstanding, nothing in flight. -/
theorem Inv.inFlight_nil {σ : Sys} (h : Inv σ) (hcnt : σ.s.wrcnt = 0) : σ.inFlight = [] := by
  have hcount := h.count
  by_contra hne
  have hp : σ.pending = [] := List.length_eq_zero_iff.mp (by omega)
  have hpos := finals_pos_of_last hne fun a ha => h.last_inFlight hp ha
  omega

/-! ## §3 — one event.

A write adds one on both sides, a final reply moves one from the requests that are open to those in
flight, and a call of the iterator takes one off. -/

/-- One more reply has been sent. -/
theorem inFlight_arrive {σ : Sys} (hle : σ.returned.length ≤ σ.arrived.length) (a : Arrival) :
    (σ.arrived ++ [a]).drop σ.returned.length = σ.inFlight ++ [a] ∧
      (σ.arrived ++ [a]).take σ.returned.length = σ.read :=
  ⟨List.drop_append_of_le_length hle, List.take_append_of_le_length hle⟩

/-- One more reply has been read. -/
theorem inFlight_read {l l' : List Arrival} {a : Arrival} {n : Nat} (h : l.drop n = a :: l') :
    l.drop (n + 1) = l' ∧ l.take (n + 1) = l.take n ++ [a] := by
  have hlt : n < l.length := by
    by_contra hge
    rw [List.drop_eq_nil_of_le (by omega)] at h
    exact absurd h (by simp)
  have hcons := List.drop_eq_getElem_cons hlt
  rw [h] at hcons
  obtain ⟨rfl, htail⟩ := List.cons.inj hcons
  refine ⟨htail.symm, ?_⟩
  rw [List.take_add_one, List.getElem?_eq_getElem hlt]
  rfl

/-- **A request that is written** is one more outstanding.  A write that fails changes neither side.
-/
theorem Inv.write {σ : Sys} (h : Inv σ) {op : SendOp UInt8} {rc : Int} {s' : TntStream}
    (hsmall : σ.written + 1 < finals σ.read + 2 ^ 32) (hcall : netWrite op σ.s = some (rc, s'))
    (hok : rc ≠ -1) :
    Inv { σ with s := s', written := σ.written + 1, pending := σ.pending ++ [σ.written] } := by
  cases hsend : sendCall σ.s.net op with
  | none => simp [netWrite, hsend] at hcall
  | some p =>
    obtain ⟨rc', net⟩ := p
    simp only [netWrite, hsend, bind, Option.bind_some] at hcall
    obtain ⟨hready, hcome⟩ := h.ready.sendCall hsend
    by_cases hrc : rc' ≠ -1
    · rw [if_pos hrc] at hcall
      obtain ⟨-, rfl⟩ := Prod.mk.inj (Option.some.inj hcall)
      have htotal := h.total
      have hcount := h.count
      -- the counter does not wrap around: so many replies are not outstanding
      have hup : (σ.s.wrcnt + 1) % 2 ^ 32 = σ.s.wrcnt + 1 := Nat.mod_eq_of_lt (by omega)
      refine ⟨hready, h.status, hcome.trans h.flow, ?_, ?_, ?_, h.told, ?_⟩
      · show (σ.s.wrcnt + 1) % 2 ^ 32 < 2 ^ 32
        omega
      · show (σ.s.wrcnt + 1) % 2 ^ 32 = (σ.pending ++ [σ.written]).length + finals σ.inFlight
        rw [hup, List.length_append, List.length_singleton]
        omega
      · show (σ.s.wrcnt + 1) % 2 ^ 32 + finals σ.read = σ.written + 1
        omega
      · intro hp
        exact absurd hp (by simp)
    · rw [if_neg hrc] at hcall
      obtain ⟨rfl, -⟩ := Prod.mk.inj (Option.some.inj hcall)
      exact absurd hok hrc

/-- A flush changes nothing that is counted. -/
theorem Inv.flush {σ : Sys} (h : Inv σ) {rc : Int} {s' : TntStream}
    (hcall : tntFlush σ.s = some (rc, s')) : Inv { σ with s := s' } := by
  cases hsend : sendCall σ.s.net .flush with
  | none => simp [tntFlush, hsend] at hcall
  | some p =>
    obtain ⟨rc', net⟩ := p
    simp only [tntFlush, hsend, bind, Option.bind_some, pure] at hcall
    obtain ⟨-, rfl⟩ := Prod.mk.inj (Option.some.inj hcall)
    obtain ⟨hready, hcome⟩ := h.ready.sendCall hsend
    exact ⟨hready, h.status, hcome.trans h.flow, h.small, h.count, h.total, h.told, h.last⟩

/-- A reply arrives.  A final one closes its request. -/
theorem Inv.arrive {σ : Sys} (h : Inv σ) {a : Arrival} {pending : List Nat}
    (hpending : pending.length + (if a.final then 1 else 0) = σ.pending.length)
    (hlast : pending = [] → a.final = true) :
    Inv { σ with
      s := { σ.s with net := arrive σ.s.net a.reply.bytes }
      pending := pending
      arrived := σ.arrived ++ [a] } := by
  obtain ⟨hready, hcome⟩ := h.ready.arrive a.reply.bytes
  obtain ⟨hdrop, htake⟩ := inFlight_arrive h.returned_le a
  refine ⟨hready, h.status, ?_, h.small, ?_, ?_, ?_, ?_⟩
  · show (Net.arrive σ.s.net a.reply.bytes).toCome = wires ((σ.arrived ++ [a]).drop _)
    rw [hcome, h.flow, hdrop, wires_append]
    simp [wires]
  · show σ.s.wrcnt = pending.length + finals ((σ.arrived ++ [a]).drop σ.returned.length)
    rw [hdrop, finals_append, finals_singleton, h.count]
    omega
  · show σ.s.wrcnt + finals ((σ.arrived ++ [a]).take σ.returned.length) = σ.written
    rw [htake]
    exact h.total
  · show List.Forall₂ _ ((σ.arrived ++ [a]).take σ.returned.length) σ.returned
    rw [htake]
    exact h.told
  · intro hp b hb
    have hb' : (σ.arrived ++ [a]).getLast? = some b := hb
    rw [List.getLast?_append, List.getLast?_singleton] at hb'
    obtain rfl : a = b := by simpa using hb'
    exact hlast hp

section Steps

variable [Msgpuck] {alloc : Nat → Bool}

/-- **A call of `tnt_next`** with a reply in flight and a request outstanding.  It takes the reply
that was sent first, and the counter goes down if that one was final. -/
theorem tntNext_spec (halloc : ∀ n, alloc n = true) {s : TntStream} (h : Ready s.net)
    (hcnt : s.wrcnt ≠ 0) (hlt : s.wrcnt < 2 ^ 32) {a : Arrival} {l : List Arrival}
    (hcome : s.net.toCome = wires (a :: l)) (i : IterReply) :
    ∃ r s', tntNext alloc i s = some (1, { i with r := r }, s') ∧ a.reply.ReadAs r ∧
      Ready s'.net ∧ s'.net.toCome = wires l ∧
      s'.wrcnt + (if a.final then 1 else 0) = s.wrcnt := by
  rw [wires_cons] at hcome
  have hkind := a.kind
  cases hf : a.final with
  | true =>
    rw [hf] at hkind
    obtain ⟨r, net, hcall, hread, hready, hrest⟩ := tntNext_final halloc h hcnt hcome hkind i
    refine ⟨r, _, hcall, hread, hready, hrest, ?_⟩
    have hdown : (TntStream.countDown { s with net := net }).wrcnt = s.wrcnt - 1 :=
      countDown_wrcnt hcnt hlt
    rw [hdown, if_pos rfl]
    omega
  | false =>
    rw [hf] at hkind
    obtain ⟨r, net, hcall, hread, hready, hrest⟩ := tntNext_chunk halloc h hcnt hcome hkind i
    exact ⟨r, _, hcall, hread, hready, hrest, rfl⟩

/-- **A call of `tnt_next`**: with nothing outstanding it ends, else it reads the next reply. -/
theorem Inv.next {σ : Sys} (h : Inv σ) (halloc : ∀ n, alloc n = true) {rv : Int} {it' : IterReply}
    {s' : TntStream} (hwait : σ.s.wrcnt ≠ 0 → σ.inFlight ≠ [])
    (hcall : tntNext alloc σ.it σ.s = some (rv, it', s')) :
    Inv { σ with
      s := s'
      it := it'
      returned := if rv = 0 then σ.returned else σ.returned ++ [it'.r] } := by
  by_cases hcnt : σ.s.wrcnt = 0
  · -- nothing is outstanding: the iterator is at its end
    rw [tntNext_end alloc hcnt] at hcall
    simp only [Option.some.injEq, Prod.mk.injEq] at hcall
    obtain ⟨rfl, rfl, rfl⟩ := hcall
    simp only [if_true]
    exact ⟨h.ready, h.status, h.flow, h.small, h.count, h.total, h.told, h.last⟩
  · obtain ⟨a, l, hfl⟩ : ∃ a l, σ.inFlight = a :: l := by
      cases hfl : σ.inFlight with
      | nil => exact absurd hfl (hwait hcnt)
      | cons a l => exact ⟨a, l, rfl⟩
    have hflow := h.flow
    rw [hfl] at hflow
    obtain ⟨r, s'', hnext, hread, hready, hcome, hdown⟩ :=
      tntNext_spec halloc h.ready hcnt h.small hflow σ.it
    rw [hnext] at hcall
    simp only [Option.some.injEq, Prod.mk.injEq] at hcall
    obtain ⟨rfl, rfl, rfl⟩ := hcall
    -- the first reply in flight is now the last one returned
    obtain ⟨hdrop, htake⟩ := inFlight_read hfl
    have hlen : (σ.returned ++ [r]).length = σ.returned.length + 1 := by simp
    simp only [show ¬ (1 : Int) = 0 by decide, if_false]
    have hcount := h.count
    have htotal := h.total
    have hsmall := h.small
    rw [hfl, finals_cons] at hcount
    refine ⟨hready, h.status, ?_, ?_, ?_, ?_, ?_, h.last⟩
    · show s''.net.toCome = wires (σ.arrived.drop (σ.returned ++ [r]).length)
      rw [hlen, hdrop]
      exact hcome
    · show s''.wrcnt < 2 ^ 32
      omega
    · show s''.wrcnt = σ.pending.length + finals (σ.arrived.drop (σ.returned ++ [r]).length)
      rw [hlen, hdrop]
      omega
    · show s''.wrcnt + finals (σ.arrived.take (σ.returned ++ [r]).length) = σ.written
      rw [hlen, htake, finals_append, finals_singleton]
      rw [Sys.read] at htotal
      omega
    · show List.Forall₂ _ (σ.arrived.take (σ.returned ++ [r]).length) (σ.returned ++ [r])
      rw [hlen, htake]
      exact List.rel_append h.told (.cons hread .nil)

/-- **Every event keeps the invariant.** -/
theorem Inv.step {σ σ' : Sys} (h : Inv σ) (halloc : ∀ n, alloc n = true) (hstep : Step alloc σ σ') :
    Inv σ' := by
  cases hstep with
  | write _ hsmall hcall hok => exact h.write hsmall hcall hok
  | flush hcall => exact h.flush hcall
  | chunk hreq hkind =>
    refine h.arrive (by rw [hkind]; rfl) ?_
    intro hp
    rw [hp] at hreq
    exact absurd hreq (by simp)
  | final hreq hkind =>
    refine h.arrive ?_ fun _ => hkind
    have hpos : 0 < σ.pending.length := List.length_pos_of_mem hreq
    rw [List.length_erase_of_mem hreq, hkind, if_pos rfl]
    omega
  | next hwait hcall => exact h.next halloc hwait hcall

omit [Msgpuck] in
/-- It holds at the start. -/
theorem Start.inv {σ : Sys} (h : Start σ) : Inv σ := by
  have hread : σ.read = [] := by rw [Sys.read, h.arrived, List.take_nil]
  have hfl : σ.inFlight = [] := by rw [Sys.inFlight, h.arrived, List.drop_nil]
  refine ⟨h.ready, h.status, ?_, ?_, ?_, ?_, ?_, ?_⟩
  · rw [h.toCome, hfl]
    rfl
  · rw [h.wrcnt]
    decide
  · rw [h.wrcnt, h.pending, hfl]
    rfl
  · rw [h.wrcnt, hread, h.written]
    rfl
  · rw [hread, h.returned]
    exact .nil
  · intro _ a ha
    rw [h.arrived] at ha
    exact absurd ha (by simp)

/-- Every state of a run. -/
theorem Run.inv {σ σ' : Sys} (hstart : Start σ) (halloc : ∀ n, alloc n = true)
    (hrun : Run alloc σ σ') : Inv σ' := by
  induction hrun with
  | refl => exact hstart.inv
  | tail _ hstep ih => exact ih.step halloc hstep

/-! ## §4 — what holds across every run.

The clauses that a client relies on, read off the invariant. -/

/-- **The loop `while (tnt_next(&it))`** reads the replies `l` and stops.  If the last of them is
final for the last request outstanding, the counter is 0 behind it, and not before. -/
theorem nextLoop_spec (halloc : ∀ n, alloc n = true) {s : TntStream} (h : Ready s.net)
    {l : List Arrival} (hcome : s.net.toCome = wires l) (hcnt : s.wrcnt = finals l)
    (hlt : s.wrcnt < 2 ^ 32) (hlast : ∀ a, l.getLast? = some a → a.final = true) (i : IterReply) :
    ∃ rs i' s', nextLoop alloc (l.length + 1) i s = some (rs, i', s') ∧
      List.Forall₂ (fun a r => a.reply.ReadAs r) l rs ∧ i'.status = i.status ∧ s'.wrcnt = 0 ∧
      s'.net.toCome = [] := by
  induction l generalizing s i with
  | nil =>
    have hzero : s.wrcnt = 0 := hcnt
    refine ⟨[], { i with r := zeroReply }, s, ?_, .nil, rfl, hzero, hcome⟩
    simp only [List.length_nil, nextLoop, tntNext_end alloc hzero, bind, Option.bind_some, if_true]
  | cons a l ih =>
    -- the last arrival ends a call, so while one is to come the counter is not yet zero
    have hpos : s.wrcnt ≠ 0 := by
      have := finals_pos_of_last (List.cons_ne_nil a l) hlast
      omega
    -- one turn reads the next arrival and lowers the counter if it was the final one of a call
    obtain ⟨r, s₁, hnext, hread, hready, hrest, hdown⟩ :=
      tntNext_spec halloc h hpos hlt hcome i
    rw [finals_cons] at hcnt
    have hlast' : ∀ b, l.getLast? = some b → b.final = true := by
      intro b hb
      refine hlast b ?_
      rw [List.getLast?_cons, hb]
      rfl
    obtain ⟨rs, i', s', hloop, hall, hstatus, hzero, hend⟩ :=
      @ih s₁ hready hrest (by omega) (by omega) hlast' { i with r := r }
    refine ⟨r :: rs, i', s', ?_, .cons hread hall, hstatus, hzero, hend⟩
    rw [List.length_cons, nextLoop]
    simp only [hnext, bind, Option.bind_some, show ¬ (1 : Int) = 0 by decide, if_false, hloop]

/-- What a client can rely on in a state. -/
structure Accounted (alloc : Nat → Bool) (σ : Sys) : Prop where
  /-- `wrcnt` is the number of requests written minus the number of final replies read. -/
  wrcnt : σ.s.wrcnt + finals σ.read = σ.written
  /-- The replies handed out are the replies that have arrived, in this order, each once. -/
  in_order : List.Forall₂ (fun a r => a.reply.ReadAs r) σ.read σ.returned
  /-- What is outstanding is what the server still owes or has sent. -/
  owed : σ.s.wrcnt = σ.pending.length + finals σ.inFlight
  status : σ.it.status = .ok
  /-- With nothing outstanding nothing is in flight, and `tnt_next` ends without a receive. -/
  stop : σ.s.wrcnt = 0 →
    σ.inFlight = [] ∧ tntNext alloc σ.it σ.s = some (0, { σ.it with r := zeroReply }, σ.s)
  /-- With a request outstanding `tnt_next` hands out the next reply in flight. -/
  go : σ.s.wrcnt ≠ 0 → ∀ a l, σ.inFlight = a :: l →
    ∃ r s', tntNext alloc σ.it σ.s = some (1, { σ.it with r := r }, s') ∧ a.reply.ReadAs r ∧
      s'.wrcnt + (if a.final then 1 else 0) = σ.s.wrcnt
  /-- Once the server has answered everything, the loop hands out what is in flight, of which the
  last is a final reply, and ends with `TNT_ITER_OK`. -/
  loop : σ.pending = [] →
    (∀ a, σ.inFlight.getLast? = some a → a.final = true) ∧
      ∃ rs it' s', nextLoop alloc (σ.inFlight.length + 1) σ.it σ.s = some (rs, it', s') ∧
        List.Forall₂ (fun a r => a.reply.ReadAs r) σ.inFlight rs ∧ it'.status = .ok ∧
        s'.wrcnt = 0

/-- **Outstanding-reply accounting**, in every state of every run.  The counter of the stream is the
number of requests that were written less the number of final replies that were read, so at 0
nothing is owed, and an iterator that asks for a reply then gets none instead of waiting.  The
invariant `Inv` is kept by each of the events, `Inv.step`, and the run is an induction over them;
the last part, about a client that reads to the end, is an induction on the replies still in flight.
-/
theorem accounted (halloc : ∀ n, alloc n = true) {σ₀ σ : Sys} (hstart : Start σ₀)
    (hrun : Run alloc σ₀ σ) : Accounted alloc σ := by
  have h : Inv σ := Run.inv hstart halloc hrun
  refine ⟨h.total, h.told, h.count, h.status, ?_, ?_, ?_⟩
  · intro hcnt
    exact ⟨h.inFlight_nil hcnt, tntNext_end alloc hcnt σ.it⟩
  · intro hcnt a l hfl
    have hflow := h.flow
    rw [hfl] at hflow
    obtain ⟨r, s', hnext, hread, -, -, hdown⟩ :=
      tntNext_spec halloc h.ready hcnt h.small hflow σ.it
    exact ⟨r, s', hnext, hread, hdown⟩
  · intro hp
    have hlast : ∀ a, σ.inFlight.getLast? = some a → a.final = true :=
      fun a ha => h.last_inFlight hp ha
    have hcount := h.count
    rw [hp, List.length_nil, Nat.zero_add] at hcount
    obtain ⟨rs, it', s', hloop, hall, hstatus, hzero, -⟩ :=
      nextLoop_spec halloc h.ready h.flow hcount h.small hlast σ.it
    exact ⟨hlast, rs, it', s', hloop, hall, hstatus.trans h.status, hzero⟩

end Steps

/-! A request that is answered by an error. -/

/-- A stream with a receive buffer of four bytes, and an iterator on it. -/
def freshSys : Sys where
  s := { wrcnt := 0, reqid := 0, net := .fresh [] [0, 0, 0, 0] [] false 16 fun _ => .take 2 }
  it := tntIterReply
  written := 0
  pending := []
  arrived := []
  returned := []

/-- A fresh stream is such a start. -/
theorem freshSys_start : Start freshSys where
  ready := ⟨tntIobInit_wf _ _, ⟨(tntIobInit_wf _ _).sized, Nat.zero_le _⟩, by
    rintro n ⟨e, he⟩
    exact absurd he (by simp [freshSys, StreamNet.fresh])⟩
  toCome := rfl
  wrcnt := rfl
  status := rfl
  written := rfl
  pending := rfl
  arrived := rfl
  returned := rfl

def errorArrival : Arrival where
  request := 0
  reply := ⟨errorHdr, some errorBody, errorReply_wellFormed, errorReply_length⟩
  final := true
  kind := Or.inr ⟨1, rfl, errorBody, rfl, _, List.mem_singleton.mpr rfl, rfl⟩

/-- A run with one request and an error as its answer. -/
theorem accounted_error_reply :
    ∃ σ, @Run Msgpuck.reference (fun _ => true) freshSys σ ∧ σ.written = 1 ∧ σ.s.wrcnt = 1 ∧
      ∃ rs it' s', @nextLoop Msgpuck.reference (fun _ => true) 2 σ.it σ.s = some (rs, it', s') ∧
        rs.length = 1 ∧ it'.status = .ok ∧ s'.wrcnt = 0 := by
  have hwrite := @Step.write Msgpuck.reference (fun _ => true) freshSys (.send [0x80]) 1 _
    (by decide) (by decide) rfl (by decide)
  have hfinal := Relation.ReflTransGen.tail (Relation.ReflTransGen.single hwrite)
    (@Step.final Msgpuck.reference (fun _ => true) _ errorArrival (List.mem_singleton.mpr rfl) rfl)
  have hacc := @accounted Msgpuck.reference (fun _ => true) (fun _ => rfl) _ _ freshSys_start hfinal
  obtain ⟨-, rs, it', s', hloop, hall, hstatus, hzero⟩ := @Accounted.loop Msgpuck.reference _ _ hacc
    rfl
  exact ⟨_, hfinal, rfl, rfl, rs, it', s', hloop, hall.length_eq.symm, hstatus, hzero⟩

end TarantoolC.Accounting
