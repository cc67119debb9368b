/-
# TarantoolC.Io.Recv — receiving (`tnt_io_recv`, `tnt_io_recv_raw` of `tnt/tnt_io.c`).

A call of `tnt_io_recv` hands out bytes that are already in the receive buffer, refilling it as
often as it has to.  What is still to come of the stream is `toCome`, the unread part of the buffer
and the bytes below it; `recvLoop_spec` says what a call does to it, transport failures included.

Without failures buffering is TRANSPARENT (`tntIoRecv_transparent`): nobody can tell from the bytes
handed out how large the buffer is or how the transport cuts the stream.

With failures it is not.  A refill that fails leaves the read offset at 0 and the old `top` behind,
so the buffer shows the bytes it had before as unread again, and the next call for a byte gets one of
them; `recvCalls_no_redelivery_iff` says that this is the only way to get a byte twice.

## How a run of calls is followed.

`RecvPost` is what one call of `tnt_io_recv` may do, failures included: it hands out a beginning of
what was to come, all that was asked for unless it fails, and leaves a buffer that is in order or
STALE.  A buffer is stale if its read offset is 0 and its `top` is not, while the bytes below `top`
have been handed out.  The loop is followed by `recvLoop_spec`, with the number of bytes still
wanted as the measure.

For the second result the bytes of the stream are made different, by numbering them with their
places; then "in order and none twice" is that what was handed out is a sublist of what was to come
(`recvCalls_sublist_iff`).  `OnceIff` is what one call contributes, and a call for no bytes is none
at all: it hands out nothing, asks the transport for nothing and leaves the buffer as it is
(`tntIoRecv_nothing`).  So the condition is on calls for at least one byte.
-/
import TarantoolC.Io.Stream

namespace TarantoolC.Io

variable {α : Type}

/-! ## §1 — the code.

The loop copies what there is, asks the transport for as much as the buffer holds, and goes round;
the end of the buffer is moved only when something came. -/

/-- The loop of `tnt_io_recv_raw`.  `out` is what stands at `buf`; its length is `off`. -/
def recvRawLoop (size : Nat) (all : Bool) :
    Nat → StreamNet α → List α → Option (Int × List α × StreamNet α)
  | 0, _, _ => none
  | fuel + 1, s, out =>
    let (bs, io) := s.io.recv (size - out.length)
    let s := { s with io := io }
    if bs.length = 0 then some (-1, out, s.failSystem)
    else
      let out := out ++ bs
      if out.length ≠ size ∧ all then recvRawLoop size all fuel s out
      else some (out.length, out, s)

/-- `tnt_io_recv_raw`: the result, the bytes stored at `buf`, and the stream.  `none` would be a
loop that does not end. -/
def tntIoRecvRaw (s : StreamNet α) (size : Nat) (all : Bool) :
    Option (Int × List α × StreamNet α) :=
  recvRawLoop size all (size + 1) s []

/-- The loop of `tnt_io_recv`, with `left`.  `out` is what stands at `buf`; its length is `off`. -/
def recvLoop (size : Nat) (block : List α) :
    Nat → Nat → StreamNet α → List α → Option (Int × List α × StreamNet α)
  | 0, _, _, _ => none
  | fuel + 1, left, s, out =>
    let b := s.rbuf
    if b.off + left ≤ b.top then
      some (size, out ++ (block.drop b.off).take left, { s with rbuf.off := b.off + left })
    else if b.top < b.off then none   -- `lv` wraps
    else
      let lv := b.top - b.off
      let rv := left - lv
      let out := if lv ≠ 0 then out ++ (block.drop b.off).take lv else out
      match tntIoRecvRaw { s with rbuf.off := 0 } b.size false with
      | none => none
      | some (top, got, s) =>
        if top ≤ 0 then some (-1, out, s.failSystem)
        else
          let block := got ++ block.drop got.length
          let s := { s with rbuf.buf := some block, rbuf.top := top.toNat }
          if rv ≤ s.rbuf.top then
            some (size, out ++ block.take rv, { s with rbuf.off := rv })
          else recvLoop size block fuel (left - lv) s out

/-- `tnt_io_recv`: the result, the bytes stored at `buf`, and the stream. -/
def tntIoRecv (s : StreamNet α) (size : Nat) : Option (Int × List α × StreamNet α) :=
  match s.rbuf.buf with
  | none => tntIoRecvRaw s size true
  | some block => recvLoop size block (size + 1) size s []

/-! ## §2 — `tnt_io_recv_raw`.

For a call without a buffer the loop goes on until all has come, and for a refill it is one receive. -/

/-- `s'` is `s` after some receiving that left the buffers alone. -/
structure Received (s s' : StreamNet α) : Prop where
  sbuf : s'.sbuf = s.sbuf
  rbuf : s'.rbuf = s.rbuf
  io : s.io.AfterRecv s'.io

/-- What `tnt_io_recv_raw` does from `off = out.length` on: it stores the front part `got` of what
is to come; it fails only if the transport fails or has nothing more. -/
structure RecvRawPost (size : Nat) (all : Bool) (s : StreamNet α) (out got : List α) (rc : Int)
    (s' : StreamNet α) : Prop where
  received : Received s s'
  flow : s.io.incoming = got ++ s'.io.incoming
  ends : (rc = ((out ++ got).length : Int) ∧ got ≠ [] ∧ (out ++ got).length ≤ size ∧
      (all = true → (out ++ got).length = size)) ∨
    (rc = -1 ∧ (out ++ got).length < size ∧ (all = false → got = []) ∧
      (s.io.FailedWithin s'.io ∨ s'.io.incoming = []))

/-- The loop of `tnt_io_recv_raw`, with some bytes received already. -/
theorem recvRawLoop_spec (all : Bool) {size fuel : Nat} {s : StreamNet α} {out : List α}
    (hlt : out.length < size) (hfuel : size - out.length < fuel) :
    ∃ rc got s', recvRawLoop size all fuel s out = some (rc, out ++ got, s') ∧
      RecvRawPost size all s out got rc s' := by
  induction fuel generalizing s out with
  | zero => omega
  | succ fuel ih =>
    rcases hrecv : s.io.recv (size - out.length) with ⟨bs, io⟩
    obtain ⟨hafter, hflow, hlen, hnone⟩ := Transport.recv_spec hrecv
    simp only [recvRawLoop, hrecv]
    by_cases hbs : bs.length = 0
    · rw [if_pos hbs]
      have hnil := List.length_eq_zero_iff.mp hbs
      refine ⟨-1, [], StreamNet.failSystem { s with io := io }, by rw [List.append_nil],
        ⟨rfl, rfl, hafter⟩, ?_, Or.inr ⟨rfl, ?_, ?_, ?_⟩⟩
      · rw [hflow, hnil]
        rfl
      · rwa [List.append_nil]
      · intro _
        rfl
      · exact hnone hnil (by omega)
    · rw [if_neg hbs]
      by_cases hmore : (out ++ bs).length ≠ size ∧ all = true
      · rw [if_pos hmore]
        rw [List.length_append] at hmore
        -- the rest of the loop, from `off + r`
        obtain ⟨rc, got, s', hloop, hpost⟩ := @ih { s with io := io } (out ++ bs)
          (by rw [List.length_append]; omega) (by rw [List.length_append]; omega)
        refine ⟨rc, bs ++ got, s', by rw [hloop, List.append_assoc], ?_, ?_, ?_⟩
        · exact ⟨hpost.received.sbuf, hpost.received.rbuf, hafter.trans hpost.received.io⟩
        · rw [hflow, hpost.flow, List.append_assoc]
        · rcases hpost.ends with ⟨hrc, hne, hle, hall⟩ | ⟨hrc, hshort, hone, hwhy⟩
          · refine Or.inl ⟨by rw [hrc, List.append_assoc], ?_, ?_, ?_⟩
            · intro h
              exact hne (List.append_eq_nil_iff.mp h).2
            · rwa [← List.append_assoc]
            · rwa [← List.append_assoc]
          · refine Or.inr ⟨hrc, by rwa [← List.append_assoc], ?_, ?_⟩
            · intro h
              rw [hmore.2] at h
              exact absurd h (by simp)
            · rcases hwhy with hf | hend
              · exact Or.inl (Transport.FailedWithin.of_later hafter hf)
              · exact Or.inr hend
      · rw [if_neg hmore]
        refine ⟨_, bs, _, rfl, ⟨rfl, rfl, hafter⟩, hflow, Or.inl ⟨rfl, ?_, ?_, ?_⟩⟩
        · intro h
          exact hbs (by rw [h]; rfl)
        · rw [List.length_append]
          omega
        · intro hall
          by_contra hne
          exact hmore ⟨hne, hall⟩

/-- `tnt_io_recv_raw`, for at least one byte. -/
theorem tntIoRecvRaw_spec (s : StreamNet α) {size : Nat} (hsize : 0 < size) (all : Bool) :
    ∃ rc got s', tntIoRecvRaw s size all = some (rc, got, s') ∧
      RecvRawPost size all s [] got rc s' :=
  recvRawLoop_spec all hsize (by simp)

/-! ## §3 — `tnt_io_recv`.

A turn of the loop ends it or goes round, in one of four ways with a lemma each
(`recvPost_enough` to `recvPost_fail`); `recvLoop_spec` is the induction over the turns. -/

/-- What is still to come of the stream. -/
def StreamNet.toCome (s : StreamNet α) : List α := s.rbuf.unread ++ s.io.incoming

/-- What `tnt_io_recv` does while `left` bytes are wanted: either it stores the next `left` bytes,
or it stores fewer and fails.  After a failure the bytes in the buffer are all bytes handed out
before. -/
structure RecvPost (size left : Nat) (s : StreamNet α) (got : List α) (rc : Int)
    (s' : StreamNet α) : Prop where
  sbuf : s'.sbuf = s.sbuf
  io : s.io.AfterRecv s'.io
  wf : s'.rbuf.WF
  size_eq : s'.rbuf.size = s.rbuf.size
  ends : (rc = size ∧ got.length = left ∧ s.toCome = got ++ s'.toCome ∧
      (s.rbuf.buf ≠ none → 0 < s'.rbuf.off) ∧ s'.rbuf.front ⊆ s.rbuf.front ++ got) ∨
    (rc = -1 ∧ got.length < left ∧ s.toCome = got ++ s'.io.incoming ∧ s'.rbuf.off = 0 ∧
      s'.rbuf.unread ⊆ s.rbuf.front ++ got ∧ (s.io.FailedWithin s'.io ∨ s'.io.incoming = []) ∧
      s.rbuf.unread <+: got)

/-- The buffer after a refill with `got`. -/
def Iob.refill (b : Iob α) (block got : List α) : Iob α :=
  { b with buf := some (got ++ block.drop got.length), off := 0, top := got.length }

/-- A refill leaves a buffer in order, with the bytes received as the unread ones. -/
theorem Iob.refill_wf {b : Iob α} {block got : List α} (hblock : block.length = b.size)
    (hne : got ≠ []) (hle : got.length ≤ b.size) : (b.refill block got).WF := by
  have hpos : 0 < got.length := List.length_pos_iff.mpr hne
  refine ⟨⟨?_, ?_⟩, Nat.zero_le _, hle⟩
  · show (got ++ block.drop got.length).length = b.size
    rw [List.length_append, List.length_drop]
    omega
  · show 0 < b.size
    omega

@[simp] theorem Iob.refill_unread (b : Iob α) (block got : List α) :
    (b.refill block got).unread = got := by
  simp [Iob.unread, Iob.refill]

@[simp] theorem Iob.refill_front (b : Iob α) (block got : List α) :
    (b.refill block got).front = [] := by
  simp [Iob.front, Iob.refill]

/-- Handing out from a buffer moves bytes from its unread part to its front. -/
theorem Iob.handOut {b : Iob α} {block : List α} (hb : b.buf = some block) {n : Nat}
    (hn : b.off + n ≤ b.top) :
    ({ b with off := b.off + n } : Iob α).front = b.front ++ (block.drop b.off).take n ∧
      b.unread = (block.drop b.off).take n ++ ({ b with off := b.off + n } : Iob α).unread := by
  simp only [Iob.front, Iob.unread, hb, Option.getD_some]
  refine ⟨List.take_add, ?_⟩
  have hsum : b.top - b.off = n + (b.top - (b.off + n)) := by omega
  rw [hsum, List.take_add, List.drop_drop]

/-- The first exit of the loop: the buffer has all that is wanted. -/
theorem recvPost_enough {size left : Nat} {s : StreamNet α} {block : List α} (hwf : s.rbuf.WF)
    (hb : s.rbuf.buf = some block) (hleft : 0 < left) (hroom : s.rbuf.off + left ≤ s.rbuf.top) :
    RecvPost size left s ((block.drop s.rbuf.off).take left) size
      { s with rbuf.off := s.rbuf.off + left } := by
  obtain ⟨hfront, hunread⟩ := Iob.handOut hb hroom
  have hblock : block.length = s.rbuf.size := by
    have hlen := hwf.sized.length_getD
    rwa [hb] at hlen
  refine ⟨rfl, .refl _, ⟨hwf.sized, hroom, hwf.top_le⟩, rfl, Or.inl ⟨rfl, ?_, ?_, ?_, ?_⟩⟩
  · have htop := hwf.top_le
    rw [List.length_take, List.length_drop, hblock]
    omega
  · show s.rbuf.unread ++ s.io.incoming = _
    rw [hunread, List.append_assoc]
    rfl
  · intro _
    show 0 < s.rbuf.off + left
    omega
  · show Iob.front { s.rbuf with off := s.rbuf.off + left } ⊆ _
    rw [hfront]
    exact List.Subset.refl _

/-- The second exit: the refill fails. -/
theorem recvPost_fail {size left : Nat} {s s' : StreamNet α} (hwf : s.rbuf.WF)
    (hroom : ¬ s.rbuf.off + left ≤ s.rbuf.top)
    (hpost : RecvRawPost s.rbuf.size false { s with rbuf.off := 0 } [] [] (-1) s') :
    RecvPost size left s s.rbuf.unread (-1) s'.failSystem := by
  have hrbuf := hpost.received.rbuf
  have hend : s.io.FailedWithin s'.io ∨ s'.io.incoming = [] := by
    rcases hpost.ends with ⟨hrc, -⟩ | ⟨-, -, -, hwhy⟩
    · exact absurd hrc (by simp)
    · exact hwhy
  have hoff := hwf.off_le
  refine ⟨hpost.received.sbuf, hpost.received.io, ?_, ?_, Or.inr ⟨rfl, ?_, ?_, ?_, ?_, hend,
    List.prefix_refl _⟩⟩
  · show s'.rbuf.WF
    rw [hrbuf]
    exact ⟨hwf.sized, Nat.zero_le _, hwf.top_le⟩
  · show s'.rbuf.size = _
    rw [hrbuf]
  · rw [hwf.length_unread]
    omega
  · show s.rbuf.unread ++ s.io.incoming = s.rbuf.unread ++ s'.io.incoming
    have hflow : s.io.incoming = [] ++ s'.io.incoming := hpost.flow
    rw [hflow, List.nil_append]
  · show s'.rbuf.off = 0
    rw [hrbuf]
  · -- with the offset back at 0, everything below `top` counts as unread
    show s'.rbuf.unread ⊆ _
    rw [hrbuf, Iob.front_append_unread hoff]
    show List.take (s.rbuf.top - 0) (List.drop 0 _) ⊆ _
    exact List.Subset.refl _

/-- The third exit: the refill brings all that is still wanted. -/
theorem recvPost_refilled {size left : Nat} {s s' : StreamNet α} {block got : List α}
    (hwf : s.rbuf.WF) (hblock : block.length = s.rbuf.size)
    (hroom : ¬ s.rbuf.off + left ≤ s.rbuf.top) (hrec : Received { s with rbuf.off := 0 } s')
    (hflow : s.io.incoming = got ++ s'.io.incoming) (hne : got ≠ [])
    (hle : got.length ≤ s.rbuf.size) (hrv : left - (s.rbuf.top - s.rbuf.off) ≤ got.length) :
    RecvPost size left s
      (s.rbuf.unread ++ got.take (left - (s.rbuf.top - s.rbuf.off))) size
      { s' with
        rbuf := { s'.rbuf.refill block got with off := left - (s.rbuf.top - s.rbuf.off) } } := by
  set rv := left - (s.rbuf.top - s.rbuf.off) with hrvdef
  have hrbuf := hrec.rbuf
  have hsize : s'.rbuf.size = s.rbuf.size := by rw [hrbuf]
  have hfill : (s'.rbuf.refill block got).WF :=
    Iob.refill_wf (by rw [hblock, hsize]) hne (by rw [hsize]; exact hle)
  have hoff := hwf.off_le
  have hzero : (s'.rbuf.refill block got).off = 0 := rfl
  have htop : (s'.rbuf.refill block got).top = got.length := rfl
  -- the refilled buffer hands out its first `rv` bytes
  obtain ⟨hfront, hunread⟩ := @Iob.handOut _ (s'.rbuf.refill block got)
    (got ++ block.drop got.length) rfl rv (by rw [hzero, htop]; omega)
  rw [hzero] at hfront hunread
  rw [Iob.refill_unread, List.drop_zero, List.take_append_of_le_length hrv] at hunread
  rw [Iob.refill_front, List.drop_zero, List.take_append_of_le_length hrv, Nat.zero_add] at hfront
  rw [Nat.zero_add] at hunread
  refine ⟨hrec.sbuf, hrec.io, ⟨hfill.sized, hrv, hfill.top_le⟩, hsize, Or.inl ⟨rfl, ?_, ?_, ?_, ?_⟩⟩
  · rw [List.length_append, hwf.length_unread, List.length_take]
    omega
  · show s.rbuf.unread ++ s.io.incoming = _ ++ (Iob.unread _ ++ s'.io.incoming)
    rw [hflow, List.append_assoc, ← List.append_assoc (got.take rv)]
    exact congrArg (fun x => s.rbuf.unread ++ (x ++ s'.io.incoming)) hunread
  · intro _
    show 0 < rv
    omega
  · show Iob.front _ ⊆ _
    rw [hfront, List.nil_append]
    intro x hx
    exact List.mem_append_right _ (List.mem_append_right _ hx)

/-- A loop that goes on: what the rest of it does, what the whole does. -/
theorem recvPost_more {size left : Nat} {s s' s'' : StreamNet α} {block got out : List α} {rc : Int}
    (hwf : s.rbuf.WF) (hroom : ¬ s.rbuf.off + left ≤ s.rbuf.top)
    (hrec : Received { s with rbuf.off := 0 } s') (hflow : s.io.incoming = got ++ s'.io.incoming)
    (hpost : RecvPost size (left - (s.rbuf.top - s.rbuf.off))
      { s' with rbuf := s'.rbuf.refill block got } out rc s'') :
    RecvPost size left s (s.rbuf.unread ++ out) rc s'' := by
  have hoff := hwf.off_le
  have hlen := hwf.length_unread
  have hcome : s.toCome =
      s.rbuf.unread ++ StreamNet.toCome { s' with rbuf := s'.rbuf.refill block got } := by
    show s.rbuf.unread ++ s.io.incoming = s.rbuf.unread ++ (Iob.unread _ ++ s'.io.incoming)
    rw [hflow, Iob.refill_unread]
  -- what was in `out` or in the (empty) front of the refilled buffer is in the whole output
  have hsub : ∀ {l : List α}, l ⊆ (s'.rbuf.refill block got).front ++ out →
      l ⊆ s.rbuf.front ++ (s.rbuf.unread ++ out) := by
    intro l hl x hx
    have hx' := hl hx
    rw [Iob.refill_front, List.nil_append] at hx'
    exact List.mem_append_right _ (List.mem_append_right _ hx')
  refine ⟨hpost.sbuf.trans hrec.sbuf, hrec.io.trans hpost.io, hpost.wf, ?_, ?_⟩
  · rw [hpost.size_eq]
    show s'.rbuf.size = s.rbuf.size
    rw [hrec.rbuf]
  · rcases hpost.ends with ⟨hrc, hl, hc, hpos, hfr⟩ | ⟨hrc, hl, hc, hz, hfr, hwhy, -⟩
    · refine Or.inl ⟨hrc, ?_, ?_, ?_, hsub hfr⟩
      · rw [List.length_append, hl, hlen]
        omega
      · rw [hcome, hc, List.append_assoc]
      · intro _
        exact hpos (by simp [Iob.refill])
    · refine Or.inr ⟨hrc, ?_, ?_, hz, hsub hfr, ?_, List.prefix_append _ _⟩
      · rw [List.length_append, hlen]
        omega
      · rw [hcome, hc, List.append_assoc]
      · rcases hwhy with hf | hend
        · exact Or.inl (Transport.FailedWithin.of_later hrec.io hf)
        · exact Or.inr hend

/-- **The loop of `tnt_io_recv`** ends within its fuel.  The first turn may find the buffer empty;
every later one finds at least the byte the refill before it has brought. -/
theorem recvLoop_spec {size fuel left : Nat} {s : StreamNet α} {block out : List α}
    (hwf : s.rbuf.WF) (hb : s.rbuf.buf = some block) (hleft : 0 < left)
    (hfuel : left < fuel ∨ (s.rbuf.off < s.rbuf.top ∧ left ≤ fuel)) :
    ∃ rc got s', recvLoop size block fuel left s out = some (rc, out ++ got, s') ∧
      RecvPost size left s got rc s' := by
  induction fuel generalizing left s block out with
  | zero => omega
  | succ fuel ih =>
    have hoff := hwf.off_le
    have hsized : block.length = s.rbuf.size ∧ 0 < s.rbuf.size := by
      have h := hwf.sized
      rwa [Iob.Sized, hb] at h
    by_cases hroom : s.rbuf.off + left ≤ s.rbuf.top
    · refine ⟨_, _, _, ?_, recvPost_enough hwf hb hleft hroom⟩
      simp only [recvLoop, if_pos hroom]
    · have hcopy : (if s.rbuf.top - s.rbuf.off ≠ 0 then
          out ++ (block.drop s.rbuf.off).take (s.rbuf.top - s.rbuf.off) else out) =
          out ++ s.rbuf.unread := by
        rw [Iob.unread, hb, Option.getD_some]
        split_ifs with h
        · rfl
        · rw [not_not.mp h, List.take_zero, List.append_nil]
      obtain ⟨rc, got, s', hraw, hpost⟩ :=
        tntIoRecvRaw_spec { s with rbuf.off := 0 } hsized.2 false
      rcases hpost.ends with ⟨hrc, hne, hle, -⟩ | ⟨hrc, -, hgot, -⟩
      · rw [List.nil_append] at hrc hle
        have hpos : 0 < got.length := List.length_pos_iff.mpr hne
        have hok : ¬ rc ≤ 0 := by omega
        have htop : rc.toNat = got.length := by omega
        by_cases hrv : left - (s.rbuf.top - s.rbuf.off) ≤ got.length
        · refine ⟨_, _, _, ?_, recvPost_refilled hwf hsized.1 hroom hpost.received hpost.flow hne
            hle hrv⟩
          simp only [recvLoop, if_neg hroom, if_neg (Nat.not_lt.mpr hoff), hcopy, hraw, if_neg hok,
            htop, if_pos hrv, List.append_assoc, List.take_append_of_le_length hrv, Iob.refill]
        · -- the buffer is used up: one more turn, on the refilled buffer
          have hfill : (s'.rbuf.refill block got).WF := by
            have hrbuf := hpost.received.rbuf
            refine Iob.refill_wf ?_ hne ?_
            · rw [hrbuf]
              exact hsized.1
            · rw [hrbuf]
              exact hle
          obtain ⟨rc', got', s'', hloop, hpost'⟩ :=
            @ih (left - (s.rbuf.top - s.rbuf.off)) { s' with rbuf := s'.rbuf.refill block got }
              (got ++ block.drop got.length) (out ++ s.rbuf.unread) hfill rfl (by omega)
              (Or.inr ⟨hpos, by omega⟩)
          have hrbuf0 : s'.rbuf.off = 0 := by rw [hpost.received.rbuf]
          refine ⟨rc', s.rbuf.unread ++ got', s'', ?_,
            recvPost_more hwf hroom hpost.received hpost.flow hpost'⟩
          rw [← List.append_assoc, ← hloop]
          simp only [recvLoop, if_neg hroom, if_neg (Nat.not_lt.mpr hoff), hcopy, hraw, if_neg hok,
            htop, if_neg hrv, Iob.refill, hrbuf0]
      · have hnil := hgot rfl
        subst hrc hnil
        refine ⟨-1, _, _, ?_, recvPost_fail hwf hroom hpost⟩
        simp only [recvLoop, if_neg hroom, if_neg (Nat.not_lt.mpr hoff), hcopy, hraw,
          show (-1 : Int) ≤ 0 by decide, if_true]

/-- **`tnt_io_recv`**, buffered or not.  A call without a buffer goes to the transport; one with a
buffer goes round the loop. -/
theorem tntIoRecv_spec {s : StreamNet α} (hwf : s.rbuf.WF) {size : Nat} (hsize : 0 < size) :
    ∃ rc got s', tntIoRecv s size = some (rc, got, s') ∧ RecvPost size size s got rc s' := by
  unfold tntIoRecv
  cases hb : s.rbuf.buf with
  | some block =>
    obtain ⟨rc, got, s', hloop, hpost⟩ :=
      @recvLoop_spec _ size (size + 1) size s block [] hwf hb hsize (Or.inl (Nat.lt_succ_self _))
    exact ⟨rc, got, s', hloop, hpost⟩
  | none =>
    obtain ⟨rc, got, s', hraw, hpost⟩ := tntIoRecvRaw_spec s hsize true
    have hrbuf := hpost.received.rbuf
    -- without a buffer everything that is to come is still with the transport
    have hempty : s.rbuf.unread = [] := by simp [Iob.unread, hb]
    have hzero : s.rbuf.size = 0 := by
      have h := hwf.sized
      rwa [Iob.Sized, hb] at h
    have hfront : s'.rbuf.front = [] := by rw [hrbuf]; simp [Iob.front, hb]
    refine ⟨rc, got, s', hraw, hpost.received.sbuf, hpost.received.io, by rw [hrbuf]; exact hwf,
      by rw [hrbuf], ?_⟩
    have hcome : s.toCome = got ++ s'.io.incoming := by
      rw [StreamNet.toCome, hempty, List.nil_append, hpost.flow]
    rcases hpost.ends with ⟨hrc, hne, -, hall⟩ | ⟨hrc, hlt, -, hwhy⟩
    · have hlen : got.length = size := hall rfl
      refine Or.inl ⟨?_, hlen, ?_, ?_, ?_⟩
      · rw [hrc, List.nil_append, hlen]
      · rw [hcome, StreamNet.toCome, hrbuf, hempty, List.nil_append]
      · intro h
        exact absurd hb h
      · rw [hfront]
        exact List.nil_subset _
    · refine Or.inr ⟨hrc, hlt, hcome, ?_, ?_, hwhy, by rw [hempty]; exact List.nil_prefix⟩
      · have h1 := hwf.off_le
        have h2 := hwf.top_le
        rw [hrbuf]
        omega
      · rw [hrbuf, hempty]
        exact List.nil_subset _

/-- A call for no bytes at all, on a buffered stream, does nothing. -/
theorem tntIoRecv_nothing {s : StreamNet α} (hwf : s.rbuf.WF) (hb : s.rbuf.buf ≠ none) :
    tntIoRecv s 0 = some (0, [], s) := by
  unfold tntIoRecv
  cases hbuf : s.rbuf.buf with
  | none => exact absurd hbuf hb
  | some block =>
    show recvLoop 0 block (0 + 1) 0 s [] = _
    simp only [recvLoop, Nat.add_zero, if_pos hwf.off_le, List.take_zero, List.append_nil]
    rfl

/-- Without a buffer it may fail, and it changes nothing that is to come. -/
theorem tntIoRecv_zero {s s' : StreamNet α} (hwf : s.rbuf.WF) {rc : Int} {got : List α}
    (h : tntIoRecv s 0 = some (rc, got, s')) :
    s'.rbuf.WF ∧ s'.sbuf = s.sbuf ∧ (rc ≠ -1 → got = [] ∧ s'.toCome = s.toCome) := by
  by_cases hb : s.rbuf.buf = none
  · unfold tntIoRecv at h
    rcases hrecv : s.io.recv 0 with ⟨bs, io⟩
    obtain ⟨-, -, hlen, -⟩ := Transport.recv_spec hrecv
    have hnone : bs.length = 0 := by omega
    simp only [hb, tntIoRecvRaw, recvRawLoop, List.length_nil, Nat.sub_zero, hrecv,
      if_pos hnone] at h
    cases h
    exact ⟨hwf, rfl, fun hrc => absurd rfl hrc⟩
  · rw [tntIoRecv_nothing hwf hb] at h
    cases h
    exact ⟨hwf, rfl, fun _ => ⟨rfl, rfl⟩⟩

/-- **How a call of `tnt_io_recv` ends**, for any size: whatever the transport does, a call that
does not fail has stored the next bytes of the stream. -/
theorem tntIoRecv_cases {s s' : StreamNet α} (hwf : s.rbuf.WF) {size : Nat} {rc : Int}
    {got : List α} (h : tntIoRecv s size = some (rc, got, s')) :
    s'.rbuf.WF ∧ s'.sbuf = s.sbuf ∧
      (rc ≠ -1 → got.length = size ∧ s.toCome = got ++ s'.toCome) := by
  rcases Nat.eq_zero_or_pos size with rfl | hpos
  · obtain ⟨hwf', hsbuf, hok⟩ := tntIoRecv_zero hwf h
    refine ⟨hwf', hsbuf, ?_⟩
    intro hrc
    obtain ⟨rfl, hsame⟩ := hok hrc
    exact ⟨rfl, hsame.symm⟩
  · obtain ⟨rc', got', s'', hrecv, hpost⟩ := tntIoRecv_spec hwf hpos
    rw [hrecv] at h
    cases h
    refine ⟨hpost.wf, hpost.sbuf, ?_⟩
    intro hrc
    rcases hpost.ends with ⟨-, hlen, hflow, -⟩ | ⟨hfail, -⟩
    · exact ⟨hlen, hflow⟩
    · exact absurd hfail hrc

/-! ## §4 — runs.

Nothing fails here, so a call gets all it asks for, and the run cuts the stream where the calls do. -/

/-- What can be seen of a call of `tnt_io_recv`: the buffer before and after it, its result, the
bytes stored. -/
structure RecvCall (α : Type) where
  before : Iob α
  rc : Int
  bytes : List α
  after : Iob α

/-- Calls with the given sizes, one after the other. -/
def recvCalls : StreamNet α → List Nat → Option (List (RecvCall α) × StreamNet α)
  | s, [] => some ([], s)
  | s, size :: sizes => do
    let (rc, bytes, s') ← tntIoRecv s size
    let (calls, s'') ← recvCalls s' sizes
    return (⟨s.rbuf, rc, bytes, s'.rbuf⟩ :: calls, s'')

/-- A run that begins with a call. -/
theorem recvCalls_cons {s s' s'' : StreamNet α} {size : Nat} {sizes : List Nat} {rc : Int}
    {bytes : List α} {calls : List (RecvCall α)} (hrecv : tntIoRecv s size = some (rc, bytes, s'))
    (hrun : recvCalls s' sizes = some (calls, s'')) :
    recvCalls s (size :: sizes) = some (⟨s.rbuf, rc, bytes, s'.rbuf⟩ :: calls, s'') := by
  simp only [recvCalls, hrecv, hrun, bind, Option.bind_some, pure]

/-- All bytes that a run has stored at its callers. -/
def copied (calls : List (RecvCall α)) : List α := (calls.map RecvCall.bytes).flatten

/-- A call with enough to come and a transport that does not fail. -/
theorem tntIoRecv_reliable {s : StreamNet α} (hwf : s.rbuf.WF) (hio : s.io.Reliable) {size : Nat}
    (hsize : 0 < size) (hcome : size ≤ s.toCome.length) :
    ∃ s', tntIoRecv s size = some ((size : Int), s.toCome.take size, s') ∧ s'.rbuf.WF ∧
      s'.rbuf.size = s.rbuf.size ∧ s'.io.Reliable ∧ s'.toCome = s.toCome.drop size ∧
      s'.sbuf = s.sbuf ∧ s'.io.accepted = s.io.accepted := by
  obtain ⟨rc, got, s', hrecv, hpost⟩ := tntIoRecv_spec hwf hsize
  have hio' : s'.io.Reliable := by
    intro n hf
    obtain ⟨e, he⟩ := hf
    exact hio n ⟨e, by rw [← hpost.io.move]; exact he⟩
  rcases hpost.ends with ⟨hrc, hlen, hflow, -⟩ | ⟨-, hlt, hflow, -, -, hwhy, -⟩
  · have hgot : got = s.toCome.take size := by rw [hflow, ← hlen, List.take_left]
    have hrest : s'.toCome = s.toCome.drop size := by rw [hflow, ← hlen, List.drop_left]
    refine ⟨s', ?_, hpost.wf, hpost.size_eq, hio', hrest, hpost.sbuf, hpost.io.accepted⟩
    rw [hrecv, hrc, hgot]
  · exfalso
    rcases hwhy with hf | hend
    · exact hio.not_failedWithin hf
    · -- everything has been stored, and it was too little
      rw [hflow, hend, List.append_nil] at hcome
      omega

/-- **A run without failures** gives every call what it asks for.  By induction on the calls, each
of which leaves a buffer that is in order. -/
theorem recvCalls_reliable {s : StreamNet α} (hwf : s.rbuf.WF) (hio : s.io.Reliable)
    {sizes : List Nat} (hpos : ∀ n ∈ sizes, 1 ≤ n) (hcome : sizes.sum ≤ s.toCome.length) :
    ∃ calls s', recvCalls s sizes = some (calls, s') ∧
      calls.map RecvCall.rc = sizes.map Int.ofNat ∧
      calls.map RecvCall.bytes = sizes.splitLengths s.toCome ∧
      ∀ c ∈ calls, c.after.off ≤ c.after.top ∧ c.after.top ≤ c.after.size ∧
        c.after.size = s.rbuf.size := by
  induction sizes generalizing s with
  | nil => exact ⟨[], s, rfl, rfl, rfl, by simp⟩
  | cons size sizes ih =>
    rw [List.sum_cons] at hcome
    obtain ⟨s₁, hrecv, hwf₁, hsize₁, hio₁, hcome₁, -, -⟩ :=
      tntIoRecv_reliable hwf hio (hpos size (by simp)) (by omega)
    obtain ⟨calls, s', hrun, hrcs, hbytes, hinv⟩ := ih hwf₁ hio₁ (fun n hn => hpos n (by simp [hn]))
      (by rw [hcome₁, List.length_drop]; omega)
    refine ⟨_, s', recvCalls_cons hrecv hrun, ?_, ?_, ?_⟩
    · rw [List.map_cons, hrcs]
      rfl
    · rw [List.map_cons, hbytes, List.splitLengths_cons, hcome₁]
    · intro c hc
      rcases List.mem_cons.mp hc with rfl | hc
      · exact ⟨hwf₁.off_le, hwf₁.top_le, hsize₁⟩
      · rw [← hsize₁]
        exact hinv c hc

/-- Cutting a list into pieces leaves out only what is behind them. -/
theorem flatten_splitLengths_take (sizes : List Nat) (l : List α) :
    (sizes.splitLengths l).flatten = l.take sizes.sum := by
  induction sizes generalizing l with
  | nil => simp
  | cons n sizes ih =>
    rw [List.splitLengths_cons, List.flatten_cons, ih, List.sum_cons, List.take_add]

/-- **Receive buffering is transparent.**  The bytes handed out are the stream itself, cut where the
calls cut it.  Here nothing fails: the kernel delivers what has been sent, in pieces of any size,
and the calls ask for any sizes, larger than the buffer or smaller.  The invariant is that the bytes
in front of the cursor, those in the buffer behind it and those of the kernel are the stream. -/
theorem tntIoRecv_transparent (sblock rblock incoming : List α) (txv : Bool) (iovmax : Nat)
    {move : Nat → Move} (hmove : ∀ n e, move n ≠ .fail e) {sizes : List Nat}
    (hpos : ∀ n ∈ sizes, 1 ≤ n) (hsum : sizes.sum ≤ incoming.length) :
    ∃ calls s', recvCalls (.fresh sblock rblock incoming txv iovmax move) sizes =
        some (calls, s') ∧
      calls.map RecvCall.rc = sizes.map Int.ofNat ∧
      calls.map RecvCall.bytes = sizes.splitLengths incoming ∧
      copied calls = incoming.take sizes.sum ∧
      ∀ c ∈ calls, c.after.off ≤ c.after.top ∧ c.after.top ≤ c.after.size ∧
        c.after.size = rblock.length := by
  set s : StreamNet α := .fresh sblock rblock incoming txv iovmax move with hs
  have hcome : s.toCome = incoming := by
    show (tntIobInit rblock false).unread ++ incoming = incoming
    rw [tntIobInit_unread, List.nil_append]
  have hio : s.io.Reliable := by
    rintro n ⟨e, he⟩
    exact hmove n e he
  obtain ⟨calls, s', hrun, hrcs, hbytes, hinv⟩ := @recvCalls_reliable _ s (tntIobInit_wf _ _) hio
    sizes hpos (by rw [hcome]; exact hsum)
  rw [hcome] at hbytes
  refine ⟨calls, s', hrun, hrcs, hbytes, ?_, hinv⟩
  rw [copied, hbytes, flatten_splitLengths_take]

/-- Three calls on a buffer of two bytes, with a transport that gives one byte at a time. -/
theorem tntIoRecv_transparent_three :
    ∃ calls s', recvCalls (.fresh [] [0, 0] ([1, 2, 3, 4, 5, 6, 7] : List UInt8) false 16
        fun _ => .take 0) [2, 3, 1] = some (calls, s') ∧
      calls.map RecvCall.bytes = [[1, 2], [3, 4, 5], [6]] := by
  obtain ⟨calls, s', hrun, -, hbytes, -, -⟩ := @tntIoRecv_transparent UInt8 [] [0, 0]
    [1, 2, 3, 4, 5, 6, 7] false 16 (fun _ => .take 0) (by simp) [2, 3, 1] (by decide) (by decide)
  exact ⟨calls, s', hrun, hbytes⟩

/-! ## §5 — runs in which the transport fails.

The bytes are numbered, so that a byte handed out twice is a number that comes twice, and order is
order of numbers. -/

/-- A buffer with a size is one that is there. -/
theorem Iob.Sized.buffered_iff {b : Iob α} (h : b.Sized) : b.buf ≠ none ↔ 0 < b.size := by
  unfold Iob.Sized at h
  cases hb : b.buf with
  | none =>
    rw [hb] at h
    have hzero : b.size = 0 := h
    simp [hzero]
  | some block =>
    rw [hb] at h
    simp [h.2]

/-- A call keeps the buffer. -/
theorem RecvPost.buffered {size left : Nat} {s s' : StreamNet α} {got : List α} {rc : Int}
    (h : RecvPost size left s got rc s') (hwf : s.rbuf.WF) (hb : s.rbuf.buf ≠ none) :
    s'.rbuf.buf ≠ none := by
  rw [h.wf.sized.buffered_iff, h.size_eq]
  exact hwf.sized.buffered_iff.mp hb

/-- The state a failed refill leaves in a buffer that has been filled before: what it shows as
unread are the bytes of the fill before. -/
def Iob.Stale (b : Iob α) : Prop := b.off = 0 ∧ 0 < b.top

instance (b : Iob α) : Decidable b.Stale := inferInstanceAs (Decidable (_ ∧ _))

/-- Every run ends, whatever the transport does. -/
theorem recvCalls_total {s : StreamNet α} (hwf : s.rbuf.WF) (hb : s.rbuf.buf ≠ none)
    (sizes : List Nat) : ∃ calls s', recvCalls s sizes = some (calls, s') := by
  induction sizes generalizing s with
  | nil => exact ⟨[], s, rfl⟩
  | cons size sizes ih =>
    rcases Nat.eq_zero_or_pos size with rfl | hpos
    · obtain ⟨calls, s', hrun⟩ := ih hwf hb
      exact ⟨_, s', recvCalls_cons (tntIoRecv_nothing hwf hb) hrun⟩
    · obtain ⟨rc, got, s₁, hrecv, hpost⟩ := tntIoRecv_spec hwf hpos
      obtain ⟨calls, s', hrun⟩ := ih hpost.wf (hpost.buffered hwf hb)
      exact ⟨_, s', recvCalls_cons hrecv hrun⟩

/-- A call on a stale buffer stores the first byte of the buffer again. -/
theorem tntIoRecv_stale {s s' : StreamNet α} (hwf : s.rbuf.WF) (hstale : s.rbuf.Stale) {size : Nat}
    {got : List α} {rc : Int} (hsize : 0 < size) (hpost : RecvPost size size s got rc s') :
    ∃ x, x ∈ s.rbuf.unread ∧ x ∈ got := by
  obtain ⟨x, rest, hx⟩ : ∃ x rest, s.rbuf.unread = x :: rest := by
    cases h : s.rbuf.unread with
    | nil =>
      have hlen := hwf.length_unread
      rw [h, hstale.1, List.length_nil] at hlen
      have hpos := hstale.2
      omega
    | cons x rest => exact ⟨x, rest, rfl⟩
  refine ⟨x, by rw [hx]; exact List.mem_cons_self, ?_⟩
  rcases hpost.ends with ⟨-, hlen, hflow, -, -⟩ | ⟨-, -, -, -, -, -, t, ht⟩
  · cases got with
    | nil =>
      rw [List.length_nil] at hlen
      omega
    | cons y got =>
      rw [StreamNet.toCome, hx, List.cons_append, List.cons_append] at hflow
      rw [(List.cons.inj hflow).1]
      exact List.mem_cons_self
  · rw [← ht, hx]
    exact List.mem_cons_self

/-- The stream after the bytes `done` have been handed out, in order. -/
structure InStep (total done : List α) (s : StreamNet α) : Prop where
  wf : s.rbuf.WF
  flow : total = done ++ s.toCome
  front : s.rbuf.front ⊆ done

/-- One call keeps step, or it fails and leaves a stale buffer full of bytes handed out. -/
theorem InStep.call {total done got : List α} {s s' : StreamNet α} {rc : Int} {size : Nat}
    (h : InStep total done s) (hb : s.rbuf.buf ≠ none) (hpost : RecvPost size size s got rc s') :
    (InStep total (done ++ got) s' ∧ ¬ s'.rbuf.Stale) ∨
      (s'.rbuf.Stale ∧ s'.rbuf.unread ⊆ done ++ got ∧
        ∃ rest, total = (done ++ got) ++ rest) := by
  have hsub : ∀ {l : List α}, l ⊆ s.rbuf.front ++ got → l ⊆ done ++ got := by
    intro l hl x hx
    rcases List.mem_append.mp (hl hx) with hx | hx
    · exact List.mem_append_left _ (h.front hx)
    · exact List.mem_append_right _ hx
  rcases hpost.ends with ⟨-, -, hflow, hoff, hfr⟩ | ⟨-, -, hflow, hoff, hfr, -, -⟩
  · left
    refine ⟨⟨hpost.wf, ?_, hsub hfr⟩, ?_⟩
    · rw [h.flow, hflow, List.append_assoc]
    · intro hstale
      have := hoff hb
      rw [hstale.1] at this
      exact absurd this (by simp)
  · -- the call has failed: what it had already taken is lost to its caller
    have htotal : total = (done ++ got) ++ s'.io.incoming := by
      rw [h.flow, hflow, List.append_assoc]
    by_cases htop : s'.rbuf.top = 0
    · -- nothing was ever received: the buffer is as empty as before
      left
      have hnil : s'.rbuf.unread = [] := by
        rw [Iob.unread, htop, Nat.zero_sub, List.take_zero]
      refine ⟨⟨hpost.wf, ?_, ?_⟩, ?_⟩
      · rw [htotal, StreamNet.toCome, hnil, List.nil_append]
      · rw [Iob.front, hoff, List.take_zero]
        exact List.nil_subset _
      · intro hstale
        have := hstale.2
        omega
    · right
      exact ⟨⟨hoff, Nat.pos_of_ne_zero htop⟩, hsub hfr, _, htotal⟩

/-- The run with the given sizes hands out, behind the bytes `done`, bytes of the stream in its
order and none twice exactly if no call for a byte finds a stale buffer. -/
def OnceIff (total done : List α) (s : StreamNet α) (sizes : List Nat) : Prop :=
  ∃ calls s', recvCalls s sizes = some (calls, s') ∧
    ((done ++ copied calls).Sublist total ↔
      ∀ p ∈ sizes.zip calls, 0 < p.1 → ¬ p.2.before.Stale)

/-- A call for no bytes makes no difference. -/
theorem OnceIff.nothing {total done : List α} {s : StreamNet α} {sizes : List Nat}
    (hwf : s.rbuf.WF) (hb : s.rbuf.buf ≠ none) (h : OnceIff total done s sizes) :
    OnceIff total done s (0 :: sizes) := by
  obtain ⟨calls, s', hrun, hiff⟩ := h
  refine ⟨_, s', recvCalls_cons (tntIoRecv_nothing hwf hb) hrun, ?_⟩
  rw [List.zip_cons_cons, List.forall_mem_cons, ← hiff]
  simp [copied]

/-- On a stale buffer, the first call for a byte hands out one that was handed out before. -/
theorem recvCalls_stale {total done rest : List α} (hnodup : total.Nodup)
    (htotal : total = done ++ rest) {s : StreamNet α} (hwf : s.rbuf.WF) (hb : s.rbuf.buf ≠ none)
    (hstale : s.rbuf.Stale) (hdup : s.rbuf.unread ⊆ done) (sizes : List Nat) :
    OnceIff total done s sizes := by
  induction sizes with
  | nil =>
    refine ⟨[], s, rfl, fun _ => by simp, fun _ => ?_⟩
    rw [htotal]
    exact List.sublist_append_of_sublist_left (by simp [copied])
  | cons size sizes ih =>
    rcases Nat.eq_zero_or_pos size with rfl | hpos
    · exact ih.nothing hwf hb
    · obtain ⟨rc, got, s₁, hrecv, hpost⟩ := tntIoRecv_spec hwf hpos
      obtain ⟨calls, s', hrun⟩ := recvCalls_total hpost.wf (hpost.buffered hwf hb) sizes
      obtain ⟨x, hx, hxgot⟩ := tntIoRecv_stale hwf hstale hpos hpost
      refine ⟨_, s', recvCalls_cons hrecv hrun, ?_, ?_⟩
      · intro hsub
        have hnd := hsub.nodup hnodup
        have hmem : x ∈ copied (⟨s.rbuf, rc, got, s₁.rbuf⟩ :: calls) := by
          simp [copied, hxgot]
        exact absurd rfl ((List.nodup_append.mp hnd).2.2 x (hdup hx) x hmem)
      · intro hall
        rw [List.zip_cons_cons] at hall
        exact absurd hstale (hall _ List.mem_cons_self hpos)

/-- **When a run hands out every byte at most once**, for a stream of pairwise different bytes: when
no call for a byte finds a stale buffer.  A stale buffer comes from a call that failed; the bytes it
shows are bytes that were handed out. -/
theorem recvCalls_sublist_iff {total done : List α} (hnodup : total.Nodup) {s : StreamNet α}
    (h : InStep total done s) (hb : s.rbuf.buf ≠ none) (hstale : ¬ s.rbuf.Stale)
    (sizes : List Nat) : OnceIff total done s sizes := by
  induction sizes generalizing s done with
  | nil =>
    refine ⟨[], s, rfl, fun _ => by simp, fun _ => ?_⟩
    rw [h.flow]
    exact List.sublist_append_of_sublist_left (by simp [copied])
  | cons size sizes ih =>
    rcases Nat.eq_zero_or_pos size with rfl | hpos
    · exact (ih h hb hstale).nothing h.wf hb
    · obtain ⟨rc, got, s₁, hrecv, hpost⟩ := tntIoRecv_spec h.wf hpos
      have hb₁ := hpost.buffered h.wf hb
      -- the rest of the run, in step or on a stale buffer
      have hrest : OnceIff total (done ++ got) s₁ sizes := by
        rcases h.call hb hpost with ⟨hstep, hfine⟩ | ⟨hst, hdup, rest, htotal⟩
        · exact ih hstep hb₁ hfine
        · exact recvCalls_stale hnodup htotal hpost.wf hb₁ hst hdup sizes
      obtain ⟨calls, s', hrun, hiff⟩ := hrest
      refine ⟨_, s', recvCalls_cons hrecv hrun, ?_⟩
      have hcons : done ++ copied (⟨s.rbuf, rc, got, s₁.rbuf⟩ :: calls) =
          (done ++ got) ++ copied calls := by
        simp [copied, List.append_assoc]
      rw [hcons, hiff, List.zip_cons_cons, List.forall_mem_cons]
      exact ⟨fun hall => ⟨fun _ => hstale, hall⟩, fun hall => hall.2⟩

/-- The bytes that a run hands out, each with its place in the stream, are bytes of the stream, in
its order, none of them twice. -/
def NoRedelivery (stream : List UInt8) (calls : List (RecvCall (UInt8 × Nat))) : Prop :=
  (copied calls).Sublist stream.zipIdx

instance (stream : List UInt8) (calls : List (RecvCall (UInt8 × Nat))) :
    Decidable (NoRedelivery stream calls) := inferInstanceAs (Decidable (List.Sublist _ _))

/-- **A failed receive and redelivery.**  On a buffered stream no byte is handed out twice exactly
if no call for at least one byte starts with `rbuf.off == 0 && rbuf.top > 0`.  A call that has to
ask the kernel sets `off` to 0 first; if nothing arrives, `top` is still the end of the bytes that
were there, and the next call hands these out again.  The condition is about the state in front of a
call; that no other state leads to a repetition is the invariant, and that this one does, whatever
the kernel answers then, the converse. -/
theorem recvCalls_no_redelivery_iff (stream : List UInt8) (sblock : List (UInt8 × Nat))
    {rblock : List (UInt8 × Nat)} (hbuf : 0 < rblock.length) (txv : Bool) (iovmax : Nat)
    (move : Nat → Move) (sizes : List Nat) :
    ∃ calls s', recvCalls (.fresh sblock rblock stream.zipIdx txv iovmax move) sizes =
        some (calls, s') ∧
      (NoRedelivery stream calls ↔ ∀ p ∈ sizes.zip calls, 1 ≤ p.1 → ¬ p.2.before.Stale) := by
  set s : StreamNet (UInt8 × Nat) := .fresh sblock rblock stream.zipIdx txv iovmax move with hs
  have hnodup : stream.zipIdx.Nodup := by
    apply List.Nodup.of_map Prod.snd
    rw [List.zipIdx_map_snd]
    exact List.nodup_range'
  have hstep : InStep stream.zipIdx [] s := by
    refine ⟨tntIobInit_wf _ _, ?_, ?_⟩
    · show _ = [] ++ ((tntIobInit rblock false).unread ++ stream.zipIdx)
      rw [tntIobInit_unread, List.nil_append, List.nil_append]
    · show (tntIobInit rblock false).front ⊆ []
      rw [tntIobInit_front]
      exact List.nil_subset _
  have hb : s.rbuf.buf ≠ none := by
    show (if rblock.length > 0 then some rblock else none) ≠ none
    rw [if_pos hbuf]
    simp
  exact recvCalls_sublist_iff hnodup hstep hb (fun h => Nat.lt_irrefl 0 h.2) sizes

/-- A receive that times out before anything has arrived does no harm. -/
theorem recvCalls_no_redelivery_timeout :
    ∃ calls s', recvCalls (.fresh [] [(0, 0), (0, 0)] (List.zipIdx [1, 2, 3]) false 16
        fun n => if n = 0 then .fail 11 else .take 1) [1, 1, 2] = some (calls, s') ∧
      calls.map RecvCall.rc = [-1, 1, 2] ∧ NoRedelivery [1, 2, 3] calls := by
  obtain ⟨calls, s', hrun, hiff⟩ := @recvCalls_no_redelivery_iff [1, 2, 3] [] [(0, 0), (0, 0)]
    (by decide) false 16 (fun n => if n = 0 then .fail 11 else .take 1) [1, 1, 2]
  obtain ⟨rfl, -⟩ := Prod.mk.inj (Option.some.inj hrun)
  exact ⟨_, _, hrun, by decide, hiff.mpr (by decide)⟩

/-- A receive that times out later: the byte handed out first is handed out again. -/
theorem recvCalls_redelivers :
    ∃ calls s', recvCalls (.fresh [] [(0, 0), (0, 0)] (List.zipIdx [1, 2, 3]) false 16
        fun n => if n = 1 then .fail 11 else .take 1) [2, 1, 1] = some (calls, s') ∧
      calls.map RecvCall.rc = [2, -1, 1] ∧
      calls.map RecvCall.bytes = [[(1, 0), (2, 1)], [], [(1, 0)]] ∧
      ¬ NoRedelivery [1, 2, 3] calls :=
  ⟨_, _, rfl, by decide, by decide, by decide⟩

end TarantoolC.Io
