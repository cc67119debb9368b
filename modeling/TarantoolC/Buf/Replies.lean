/-
# TarantoolC.Buf.Replies — replies stored in a `tnt_buf` stream, read back by the iterator.

`tnt_buf_reply` parses at the read cursor and moves it only past a complete reply; a 1 means both
"nothing left" and "not all of it there yet", and the iterator ends on either.  So a reply may
arrive in any number of pieces: what is complete comes out, in order, and the rest waits.

`tntBuf_replies` is the whole round: writes in any cutting, the complete replies read back, the
missing bytes written later, the last reply read.  The cursor never leaves the bytes in use,
whatever is stored (`Stored.rdoff_le`).

The streams that are considered are those of `Stored`: made by `tnt_buf`, written to in any way, and
read from by the iterator, in any order.  In these the cursor stands behind the replies that were
read, so that what is unread is a suffix of what was written.  A reply is any `WireReply`, with
header and body of any widths, final or not, an error or not.
-/
import TarantoolC.Buf.Fifo
import TarantoolC.Reply.Copy
import TarantoolC.Net

namespace TarantoolC.Buf

open MsgPack Proto Reply Net

/-! ## §1 — the code. -/

section Code

variable [Msgpuck]

/-- `tnt_buf_reply`. -/
def tntBufReply (alloc : Nat → Bool) (s : BufStream) (r : TntReply) :
    Option (Int × TntReply × BufStream) :=
  if s.sb.data = .null then some (-1, r, s)
  else if s.sb.size = s.sb.rdoff then some (1, r, s)
  else do
    let mem ← s.sb.data.contents
    let (rc, r, off) ← tntReply alloc r ((mem.take s.sb.size).drop s.sb.rdoff)
    if rc = 0 then
      return (rc, r, { s with sb := { s.sb with rdoff := s.sb.rdoff + off.getD 0 } })
    return (rc, r, s)

/-- `tnt_next` on a reply iterator over a buffer (`tnt_iter_reply_next`).  The reply read before is
freed and cleared first. -/
def tntBufNext (alloc : Nat → Bool) (i : IterReply) (s : BufStream) :
    Option (Int × IterReply × BufStream) := do
  let (rc, r, s) ← tntBufReply alloc s zeroReply
  let i := { i with r := r }
  if rc = -1 then some (0, { i with status := .fail }, s)
  else some (if rc = 1 then 0 else 1, i, s)

/-- `while (tnt_next(&it)) { … }`: the replies its body sees.  Each turn takes a reply, or ends the
loop where there is no complete one. -/
def bufNextLoop (alloc : Nat → Bool) :
    Nat → IterReply → BufStream → Option (List TntReply × IterReply × BufStream)
  | 0, _, _ => none
  | fuel + 1, i, s => do
    let (rv, i, s) ← tntBufNext alloc i s
    if rv = 0 then some ([], i, s)
    else
      let r := i.r
      let (rs, i, s) ← bufNextLoop alloc fuel i s
      some (r :: rs, i, s)

end Code

/-- Write pieces one after the other, each with the allocator it meets. -/
def writeAll : List (Allocator × Piece) → BufStream → Option BufStream
  | [], s => some s
  | (A, p) :: pieces, s => do
    let (_, s) ← p.exec A s
    writeAll pieces s

/-- All the bytes of some pieces. -/
def piecesBytes (pieces : List (Allocator × Piece)) : Bytes :=
  (pieces.map fun p => p.2.bytes).flatten

/-- Pieces one after the other append all their bytes, and the cursor stays.  An induction on the
pieces, each of which is one write or one vector. -/
theorem writeAll_spec {pieces : List (Allocator × Piece)} (hA : ∀ p ∈ pieces, p.1.Lasts)
    {s : BufStream} (hs : s.sb.Full) :
    ∃ s', writeAll pieces s = some s' ∧ s'.sb.Full ∧
      s'.sb.bytes = s.sb.bytes ++ piecesBytes pieces ∧ s'.sb.rdoff = s.sb.rdoff := by
  induction pieces generalizing s with
  | nil => exact ⟨s, rfl, hs, by simp [piecesBytes], rfl⟩
  | cons p pieces ih =>
    obtain ⟨A, p⟩ := p
    obtain ⟨rv, s₁, hexec, hfull, hbytes, hrd, -⟩ := Piece.exec_spec (hA (A, p) (by simp)) hs p
    obtain ⟨s', hall, hfull', hbytes', hrd'⟩ := ih (fun p hp => hA p (by simp [hp])) hfull
    refine ⟨s', ?_, hfull', ?_, hrd'.trans hrd⟩
    · simp only [writeAll, hexec, bind, Option.bind_some, hall]
    · rw [hbytes', hbytes, List.append_assoc]
      rfl

/-! ## §2 — one reply.

At the cursor stands a whole reply, or the beginning of one, or nothing.  Only the first moves the
cursor. -/

/-- The bytes that have not been read. -/
def unread (s : BufStream) : Bytes := s.sb.bytes.drop s.sb.rdoff

/-- The first bytes of a reply: the length is not there yet, or it announces more.  By how many of
the first five bytes are there. -/
theorem tntReplyLen_incomplete [Msgpuck] {w : WireReply} {front back : Bytes}
    (hw : w.bytes = front ++ back) (hback : back ≠ []) : ∃ k, tntReplyLen front = .ok (1, k) := by
  by_cases hshort : front.length < iprotoHdrSize
  · exact ⟨_, by rw [tntReplyLen, if_pos hshort]⟩
  · -- the whole prefix is there, some of the package is not
    rw [w.bytes_eq] at hw
    have hfive := w.prefix_length
    obtain ⟨more, rfl, hmore⟩ : ∃ more, front = (0xce :: be 4 w.package.length) ++ more ∧
        w.package = more ++ back := by
      rcases List.append_eq_append_iff.mp hw with ⟨more, hfront, hpackage⟩ | ⟨t, hpre, hrest⟩
      · exact ⟨more, hfront, hpackage⟩
      · have hlen := congrArg List.length hpre
        rw [List.length_append] at hlen
        have ht : t = [] := List.eq_nil_of_length_eq_zero (by omega)
        refine ⟨[], ?_, ?_⟩
        · rw [hpre, ht, List.append_nil, List.append_nil]
        · rw [hrest, ht]
          rfl
    have hlt := w.length_lt
    rw [← w.package_length] at hlt
    have htype := expectType_five more hlt
    have hdec := decodeUintAt_five more hlt
    have hmissing : ((0xce :: be 4 w.package.length) ++ more).length <
        (w.package.length + iprotoHdrSize) % 2 ^ 64 := by
      have hpos : 0 < back.length := List.length_pos_iff.mpr hback
      have hsum := congrArg List.length hmore
      rw [List.length_append] at hsum
      rw [iprotoHdrSize] at hfive ⊢
      rw [Nat.mod_eq_of_lt (by omega), List.length_append, hfive]
      omega
    refine ⟨(w.package.length + iprotoHdrSize) % 2 ^ 64 -
      ((0xce :: be 4 w.package.length) ++ more).length, ?_⟩
    rw [tntReplyLen, if_neg hshort]
    simp only [htype, hdec, Outcome.ok_bind, if_pos hmissing]

section Reading

variable [Msgpuck] {alloc : Nat → Bool}

omit [Msgpuck] in
/-- The memory the parser is given. -/
theorem window_eq {s : BufStream} (hs : s.sb.Full) :
    ∃ mem, s.sb.data.contents = some mem ∧ (mem.take s.sb.size).drop s.sb.rdoff = unread s := by
  refine ⟨_, hs.contents, ?_⟩
  rw [unread, List.take_of_length_le (by rw [hs.bytes_length])]

/-- **`tnt_buf_reply` on a complete reply**: it is read, and the cursor moves past it.  The reply
that was read before is freed first, which has no effect on the buffer. -/
theorem tntBufNext_reply (halloc : ∀ n, 0 < n → alloc n = true) {s : BufStream} (hs : s.sb.Full)
    {w : WireReply} {rest : Bytes} (hcome : unread s = w.bytes ++ rest) (i : IterReply) :
    ∃ r, tntBufNext alloc i s = some (1, { i with r := r },
        { s with sb := { s.sb with rdoff := s.sb.rdoff + w.bytes.length } }) ∧ w.ReadAs r := by
  obtain ⟨mem, hmem, hwindow⟩ := window_eq hs
  have hlt := w.length_lt
  rw [← w.package_length] at hlt
  obtain ⟨r, hparse, hbuf, htells⟩ := parseOwned_spec w.wf
  have hreply := tntReply_frame alloc zeroReply hlt rest
  rw [if_pos (halloc _ w.package_pos)] at hreply
  have hparse' : parseOwned w.package = .ok r := hparse
  rw [← List.append_assoc, ← w.bytes_eq, hparse'] at hreply
  have hlen : w.bytes.length = 5 + w.package.length := by
    rw [w.bytes_eq, List.length_append, w.prefix_length, iprotoHdrSize]
  have hpos : 0 < (unread s).length := by
    rw [hcome, List.length_append]
    omega
  rw [unread, List.length_drop, hs.bytes_length] at hpos
  have hlive : ¬ s.sb.data = .null := by
    rcases hs.block with ⟨-, hzero⟩ | ⟨m, hd, -, -⟩
    · omega
    · simp [hd]
  refine ⟨r, ?_, hbuf, htells⟩
  simp only [tntBufNext, tntBufReply, if_neg hlive, if_neg (show ¬ s.sb.size = s.sb.rdoff by omega),
    hmem, hwindow, hcome, hreply, bind, Option.bind_some, pure, if_true, Option.getD_some, ← hlen,
    show ¬ (0 : Int) = -1 by decide, show ¬ (0 : Int) = 1 by decide, if_false]

/-- **... and on what is not a complete reply yet**: 0, and nothing moves. -/
theorem tntBufNext_incomplete {s : BufStream} (hs : s.sb.Full) (hsome : 0 < s.sb.size) {w : WireReply}
    {front back : Bytes} (hw : w.bytes = front ++ back) (hback : back ≠ [])
    (hcome : unread s = front) (i : IterReply) :
    tntBufNext alloc i s = some (0, { i with r := zeroReply }, s) := by
  have hlive : ¬ s.sb.data = .null := by
    rcases hs.block with ⟨-, hzero⟩ | ⟨m, hd, -, -⟩
    · omega
    · simp [hd]
  by_cases hend : s.sb.size = s.sb.rdoff
  · simp only [tntBufNext, tntBufReply, if_neg hlive, if_pos hend, bind, Option.bind_some,
      show ¬ (1 : Int) = -1 by decide, if_false, if_true]
  · obtain ⟨mem, hmem, hwindow⟩ := window_eq hs
    obtain ⟨k, hlen⟩ := tntReplyLen_incomplete hw hback
    simp only [tntBufNext, tntBufReply, if_neg hlive, if_neg hend, hmem, hwindow, hcome, tntReply,
      hlen, if_true, bind, Option.bind_some, pure, show ¬ (1 : Int) = 0 by decide,
      show ¬ (1 : Int) = -1 by decide, if_false]

/-! ## §3 — all of them.

An induction on the replies that are left; what was written in which pieces has no part in it. -/

/-- Moving the cursor over bytes that are there. -/
def skip (s : BufStream) (n : Nat) : BufStream :=
  { s with sb := { s.sb with rdoff := s.sb.rdoff + n } }

omit [Msgpuck] in
/-- Moving the cursor over bytes that are there.  It is moved by as much as was taken, which is
there. -/
theorem skip_full {s : BufStream} (hs : s.sb.Full) {front rest : Bytes}
    (hcome : unread s = front ++ rest) :
    (skip s front.length).sb.Full ∧ unread (skip s front.length) = rest := by
  have hlen := congrArg List.length hcome
  rw [unread, List.length_drop, hs.bytes_length, List.length_append] at hlen
  have hrd := hs.rdoff_le
  refine ⟨⟨hs.owned, hs.block, ?_⟩, ?_⟩
  · show s.sb.rdoff + front.length ≤ s.sb.size
    omega
  · show s.sb.bytes.drop (s.sb.rdoff + front.length) = rest
    rw [← List.drop_drop]
    show (unread s).drop front.length = rest
    rw [hcome, List.drop_left]

/-- **The loop over a buffer** reads the complete replies, in order, and stops at the first one that
is not complete.  The number of turns is the number of complete replies and one more. -/
theorem bufNextLoop_spec (halloc : ∀ n, 0 < n → alloc n = true) {ws : List WireReply} {w : WireReply}
    {front back : Bytes} (hw : w.bytes = front ++ back) (hback : back ≠ []) {s : BufStream}
    (hs : s.sb.Full) (hsome : 0 < s.sb.size)
    (hcome : unread s = (ws.map WireReply.bytes).flatten ++ front) {fuel : Nat}
    (hfuel : ws.length < fuel) (i : IterReply) :
    ∃ rs, bufNextLoop alloc fuel i s = some (rs, { i with r := zeroReply },
        skip s (ws.map WireReply.bytes).flatten.length) ∧
      List.Forall₂ WireReply.ReadAs ws rs := by
  induction ws generalizing s fuel i with
  | nil =>
    obtain ⟨fuel, rfl⟩ : ∃ f, fuel = f + 1 := ⟨fuel - 1, by omega⟩
    refine ⟨[], ?_, .nil⟩
    -- the reply that is cut off ends the loop
    have hnext := @tntBufNext_incomplete _ alloc s hs hsome w front back hw hback hcome i
    simp only [bufNextLoop, hnext, bind, Option.bind_some, if_true]
    rfl
  | cons x ws ih =>
    obtain ⟨fuel, rfl⟩ : ∃ f, fuel = f + 1 := ⟨fuel - 1, by omega⟩
    rw [List.map_cons, List.flatten_cons, List.append_assoc] at hcome
    obtain ⟨r, hnext, hread⟩ := tntBufNext_reply halloc hs hcome i
    obtain ⟨hfull, hunread⟩ := skip_full hs hcome
    rw [List.length_cons] at hfuel
    obtain ⟨rs, hloop, hall⟩ := ih hfull hsome hunread (Nat.lt_of_succ_lt_succ hfuel) { i with r := r }
    refine ⟨r :: rs, ?_, .cons hread hall⟩
    have hskip : skip (skip s x.bytes.length) (ws.map WireReply.bytes).flatten.length =
        skip s ((x :: ws).map WireReply.bytes).flatten.length := by
      simp [skip, Nat.add_assoc]
    rw [hskip] at hloop
    have hstep : skip s x.bytes.length =
      { s with sb := { s.sb with rdoff := s.sb.rdoff + x.bytes.length } } := rfl
    rw [hstep] at hloop
    simp only [bufNextLoop, hnext, bind, Option.bind_some, show ¬ (1 : Int) = 0 by decide, if_false,
      hloop]

/-- A parsed reply lies inside the buffer.  Whatever the bytes are; so the cursor never passes the
end. -/
theorem tntReply_off_le {r r' : TntReply} {buf : Bytes} {off : Option Nat}
    (h : tntReply alloc r buf = some (0, r', off)) : off.getD 0 ≤ buf.length := by
  -- the callback does not move over bytes that are not there
  have hcb : ∀ {o size o' : Nat} {rc : Int} {bs : Bytes},
      tntReplyCb buf o size = some (rc, bs, o') → o' ≤ buf.length := by
    intro o size o' rc bs hcb
    rw [tntReplyCb] at hcb
    split_ifs at hcb with hle
    simp only [Option.some.injEq, Prod.mk.injEq] at hcb
    omega
  rw [tntReply] at h
  split at h
  · exact absurd h (by simp)
  · simp at h
  · split_ifs at h with hrv
    · simp at h
    · simp only [Option.bind_eq_bind, Option.bind_eq_some_iff, pure, Option.some.injEq,
        Prod.mk.injEq, Prod.exists] at h
      obtain ⟨rc, r₁, offv, hfrom, -, -, rfl⟩ := h
      obtain ⟨rc₁, length, s₁, hfirst, hcases⟩ := tntReplyFrom_cases hfrom
      rcases hcases with ⟨-, -, rfl | ⟨size, rc₂, bs, hsecond⟩⟩ |
        ⟨-, -, size, q, rc₂, bs, -, hsecond, -⟩
      · exact hcb hfirst
      · exact hcb hsecond
      · exact hcb hsecond

/-- Streams that writes and calls of the iterator lead to, whatever is written and however they
end. -/
inductive Stored : BufStream → Prop
  | new : Stored tntBuf
  | write {A : Allocator} {s s' : BufStream} {p : Piece} {rv : Int} (hA : A.Lasts) (h : Stored s)
      (hp : p.exec A s = some (rv, s')) : Stored s'
  | next {alloc : Nat → Bool} {i i' : IterReply} {s s' : BufStream} {rv : Int} (h : Stored s)
      (hn : tntBufNext alloc i s = some (rv, i', s')) : Stored s'

/-- The iterator keeps a buffer in order.  It moves the cursor and nothing else, and not beyond the
end. -/
theorem tntBufNext_full {s s' : BufStream} (hs : s.sb.Full) {i i' : IterReply} {rv : Int}
    (h : tntBufNext alloc i s = some (rv, i', s')) : s'.sb.Full := by
  simp only [tntBufNext, Option.bind_eq_bind, Option.bind_eq_some_iff, Prod.exists] at h
  obtain ⟨rc, r, s₁, hreply, hend⟩ := h
  have hsame : s' = s₁ := by
    split_ifs at hend <;> simp_all
  rw [hsame]
  rw [tntBufReply] at hreply
  split_ifs at hreply with hnull heof
  · cases hreply
    exact hs
  · cases hreply
    exact hs
  · obtain ⟨mem, hmem, hwindow⟩ := window_eq hs
    simp only [hmem, hwindow, Option.bind_eq_bind, Option.bind_some, Option.bind_eq_some_iff,
      Prod.exists] at hreply
    obtain ⟨rc₁, r₁, off, hparse, hmove⟩ := hreply
    split_ifs at hmove with hzero
    · simp only [pure, Option.some.injEq, Prod.mk.injEq] at hmove
      obtain ⟨-, -, rfl⟩ := hmove
      rw [hzero] at hparse
      -- a reply was parsed: the cursor moves behind it, inside the buffer
      have hoff := tntReply_off_le hparse
      rw [unread, List.length_drop, hs.bytes_length] at hoff
      have hrd := hs.rdoff_le
      refine ⟨hs.owned, hs.block, ?_⟩
      show s.sb.rdoff + off.getD 0 ≤ s.sb.size
      omega
    · simp only [pure, Option.some.injEq, Prod.mk.injEq] at hmove
      obtain ⟨-, -, rfl⟩ := hmove
      exact hs

/-- The block is exactly the bytes in use, ... -/
theorem Stored.full {s : BufStream} (h : Stored s) : s.sb.Full := by
  induction h with
  | new => exact tntBuf_full
  | write hA _ hp ih =>
    obtain ⟨rv, s', hexec, hfull, -⟩ := Piece.exec_spec hA ih _
    rw [hp] at hexec
    obtain ⟨-, rfl⟩ := Prod.mk.inj (Option.some.inj hexec)
    exact hfull
  | next _ hn ih => exact tntBufNext_full ih hn

/-- ... and **the cursor never leaves them**, whatever they are. -/
theorem Stored.rdoff_le {s : BufStream} (h : Stored s) : s.sb.rdoff ≤ s.sb.size := h.full.rdoff_le

/-- **Replies stored in a buffer are read back one by one.**  The complete replies `ws` and the
`front` of one more, written in any pieces: the loop sees exactly `ws` and ends with 0, without an
error, behind the last of them.  Then the missing bytes come, in any pieces, and the next call reads
that reply; after it nothing is left.  The cursor is never behind the end, in these runs or in any
others. -/
theorem tntBuf_replies (halloc : ∀ n, 0 < n → alloc n = true) {ws : List WireReply} (hne : ws ≠ [])
    {w : WireReply} {front back : Bytes} (hw : w.bytes = front ++ back) (hback : back ≠ [])
    {pieces more : List (Allocator × Piece)} (hpieces : ∀ p ∈ pieces, p.1.Lasts)
    (hmore : ∀ p ∈ more, p.1.Lasts)
    (hfirst : piecesBytes pieces = (ws.map WireReply.bytes).flatten ++ front)
    (hrest : piecesBytes more = back) {fuel : Nat} (hfuel : ws.length < fuel) :
    (∀ s, Stored s → s.sb.rdoff ≤ s.sb.size) ∧
    ∃ s₀ rs i₁ s₁, writeAll pieces tntBuf = some s₀ ∧
      bufNextLoop alloc fuel tntIterReply s₀ = some (rs, i₁, s₁) ∧
      List.Forall₂ WireReply.ReadAs ws rs ∧ i₁.status = .ok ∧
      s₁.sb.rdoff = (ws.map WireReply.bytes).flatten.length ∧
      ∃ s₂ i₃ s₃, writeAll more s₁ = some s₂ ∧ tntBufNext alloc i₁ s₂ = some (1, i₃, s₃) ∧
        w.ReadAs i₃.r ∧ i₃.status = .ok ∧ s₃.sb.rdoff = s₃.sb.size ∧
        ∃ i₄, tntBufNext alloc i₃ s₃ = some (0, i₄, s₃) ∧ i₄.status = .ok := by
  refine ⟨fun s hs => hs.rdoff_le, ?_⟩
  obtain ⟨s₀, hwrite, hfull, hbytes, hrd⟩ := writeAll_spec hpieces tntBuf_full
  have hzero : s₀.sb.rdoff = 0 := hrd
  have hbytes' : s₀.sb.bytes = (ws.map WireReply.bytes).flatten ++ front := by
    rw [hbytes, hfirst]
    rfl
  have hcome : unread s₀ = (ws.map WireReply.bytes).flatten ++ front := by
    rw [unread, hzero, List.drop_zero, hbytes']
  -- there is a reply, so there is a block
  have hsome : 0 < s₀.sb.size := by
    rw [← hfull.bytes_length, hbytes']
    obtain ⟨x, ws', rfl⟩ := List.exists_cons_of_ne_nil hne
    have hpos := x.package_pos
    rw [List.map_cons, List.flatten_cons, x.bytes_eq]
    simp only [List.length_append]
    omega
  obtain ⟨rs, hloop, hall⟩ :=
    bufNextLoop_spec halloc hw hback hfull hsome hcome hfuel tntIterReply
  obtain ⟨hfull₁, hunread₁⟩ := skip_full hfull hcome
  obtain ⟨s₂, hwrite₂, hfull₂, hbytes₂, hrd₂⟩ := writeAll_spec hmore hfull₁
  have hcome₂ : unread s₂ = w.bytes ++ [] := by
    rw [unread, hbytes₂, hrd₂, List.drop_append_of_le_length, hrest, hw, List.append_nil]
    · rw [← hunread₁]
      rfl
    · rw [hfull₁.bytes_length]
      exact hfull₁.rdoff_le
  obtain ⟨r, hnext, hread⟩ := tntBufNext_reply halloc hfull₂ hcome₂ ⟨.ok, zeroReply⟩
  obtain ⟨hfull₃, hunread₃⟩ := skip_full hfull₂ hcome₂
  have hend : (skip s₂ w.bytes.length).sb.rdoff = (skip s₂ w.bytes.length).sb.size := by
    have hlen := congrArg List.length hunread₃
    rw [unread, List.length_drop, hfull₃.bytes_length, List.length_nil] at hlen
    have hle := hfull₃.rdoff_le
    omega
  have hsome₃ : 0 < (skip s₂ w.bytes.length).sb.size := by
    have hpos := w.package_pos
    rw [← hend, skip, w.bytes_eq]
    simp only [List.length_append]
    omega
  have hlast := @tntBufNext_incomplete _ alloc _ hfull₃ hsome₃ w [] w.bytes rfl
    (fun hnil => by have hpos := w.package_pos; rw [w.bytes_eq] at hnil; simp at hnil) hunread₃
    ⟨.ok, r⟩
  refine ⟨s₀, rs, _, _, hwrite, hloop, hall, rfl, ?_, s₂, _, _, hwrite₂, hnext, hread, rfl, hend, _,
    hlast, rfl⟩
  show s₀.sb.rdoff + _ = _
  rw [hzero, Nat.zero_add]

end Reading

/-- An error reply as it comes over the wire. -/
def errorWire : WireReply := ⟨errorHdr, some errorBody, errorReply_wellFormed, errorReply_length⟩

/-- The error reply and three bytes of another one; the rest of it comes in two pieces. -/
theorem tntBuf_replies_error :
    ∃ s₀ rs i₁ s₁, writeAll [(.custom, .write (errorWire.bytes ++ errorWire.bytes.take 3))] tntBuf =
        some s₀ ∧
      @bufNextLoop Msgpuck.reference (fun n => decide (0 < n)) 2 tntIterReply s₀ =
        some (rs, i₁, s₁) ∧
      rs.length = 1 ∧ s₁.sb.rdoff = 17 ∧
      ∃ s₂ i₃ s₃, writeAll [(.custom, .write ((errorWire.bytes.drop 3).take 4)),
          (.custom, .writev [(errorWire.bytes.drop 3).drop 4, []])] s₁ = some s₂ ∧
        @tntBufNext Msgpuck.reference (fun n => decide (0 < n)) i₁ s₂ = some (1, i₃, s₃) ∧
        errorWire.ReadAs i₃.r := by
  let _ := Msgpuck.reference
  obtain ⟨-, s₀, rs, i₁, s₁, hwrite, hloop, hall, -, hrd, s₂, i₃, s₃, hmore, hnext, hread, -⟩ :=
    @tntBuf_replies Msgpuck.reference (fun n => decide (0 < n)) (fun n hn => decide_eq_true hn)
      [errorWire] (by simp) errorWire (errorWire.bytes.take 3) (errorWire.bytes.drop 3)
      (List.take_append_drop 3 _).symm (by decide)
      [(.custom, .write (errorWire.bytes ++ errorWire.bytes.take 3))]
      [(.custom, .write ((errorWire.bytes.drop 3).take 4)),
        (.custom, .writev [(errorWire.bytes.drop 3).drop 4, []])]
      (fun p hp => by rw [List.mem_singleton.mp hp]; exact Allocator.custom_lasts)
      (fun p hp => by
        rcases List.mem_cons.mp hp with rfl | hp
        · exact Allocator.custom_lasts
        · rw [List.mem_singleton.mp hp]
          exact Allocator.custom_lasts)
      (by simp [piecesBytes, Piece.bytes])
      (by
        show (errorWire.bytes.drop 3).take 4 ++ ((errorWire.bytes.drop 3).drop 4 ++ [] ++ [] ++ []) =
          errorWire.bytes.drop 3
        simp only [List.append_nil, List.take_append_drop]) 2 (by decide)
  refine ⟨s₀, rs, i₁, s₁, hwrite, hloop, hall.length_eq.symm, ?_, s₂, i₃, s₃, hmore, hnext, hread⟩
  rw [hrd]
  decide

end TarantoolC.Buf
