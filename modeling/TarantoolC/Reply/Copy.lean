/-
# TarantoolC.Reply.Copy — the COPYING reply parser (`tnt_reply`) beside the one in place.

`tnt_reply` measures the reply, clears the structure it was given and hands the rest to
`tnt_reply_from`, with a callback that copies from the buffer.  `tnt_reply0` writes straight into
the structure.  Both run the same two parsers over the same bytes, so they can only differ in what
they leave alone: `tnt_reply0` skips the body parser when the reply has no body, and the pointers of
an earlier reply stay.  `tntReply_agrees_iff` says that this is the only difference.

Two replies are compared by what they SAY (`SaysAs`): the same numbers and bitmaps, and pointers
that are `NULL` together or delimit the same bytes, each in its own buffer.  Addresses differ, of
course, and so does the owner of the bytes.

The condition that comes out has three parts, and none of them is about the values in the reply: it
has a body; or it is refused by both; or it has none and the structure that `tnt_reply0` writes into
had no pointers.  The last is what a caller gets who has just called `tnt_reply_init`, and not one
who uses a structure again.
-/
import TarantoolC.Reply

namespace TarantoolC.Reply

open MsgPack Msgpuck Proto

/-! ## §1 — `tnt_reply`.

It is `tntReplyFrom` with a callback on a state of two numbers, the position in the buffer and its
end; the callback never fails on a reply that is there as a whole. -/

/-- `tnt_reply_cb`: a `memcpy` from the buffer at `*off`, which moves along. -/
def tntReplyCb (buf : Bytes) (off size : Nat) : Option (Int × Bytes × Nat) :=
  if off + size ≤ buf.length then some (size, (buf.drop off).take size, off + size) else none

section Parser

variable [Msgpuck]

/-- `tnt_reply`, with `r` other than `NULL`: the return value, the reply, and `*off` if it is
written. -/
def tntReply (alloc : Nat → Bool) (r : TntReply) (buf : Bytes) :
    Option (Int × TntReply × Option Nat) :=
  match tntReplyLen buf with
  | .undef => none
  | .fail => some (-1, r, none)
  | .ok (rv, length) =>
    if rv = 1 then some (1, r, some length)
    else do
      let (rc, r, offv) ← tntReplyFrom alloc (tntReplyCb buf) 0
      return (rc, r, some offv)

omit [Msgpuck] in
/-- The callback at the length prefix and behind it. -/
theorem tntReplyCb_frame (package rest : Bytes) :
    tntReplyCb (0xce :: be 4 package.length ++ (package ++ rest)) 0 iprotoHdrSize =
        some ((5 : Int), 0xce :: be 4 package.length, 5) ∧
      tntReplyCb (0xce :: be 4 package.length ++ (package ++ rest)) 5 package.length =
        some ((package.length : Int), package, 5 + package.length) := by
  have hfive : (0xce :: be 4 package.length).length = 5 := by simp
  have hroom : 5 + package.length ≤ (0xce :: be 4 package.length ++ (package ++ rest)).length := by
    rw [List.length_append, hfive, List.length_append]
    omega
  refine ⟨?_, ?_⟩
  · rw [tntReplyCb, iprotoHdrSize, if_pos (by omega), List.drop_zero, ← hfive, List.take_left, hfive]
    rfl
  · rw [tntReplyCb, if_pos hroom, ← hfive, List.drop_left, List.take_left]

/-- **`tnt_reply` on a complete reply**: the announced bytes are copied and parsed, if there is a
block for them.  The structure is cleared first, so what it held before does not come into it. -/
theorem tntReply_frame (alloc : Nat → Bool) (r : TntReply) {package : Bytes}
    (hlen : package.length < 2 ^ 32) (rest : Bytes) :
    tntReply alloc r (0xce :: be 4 package.length ++ (package ++ rest)) =
      if alloc package.length = true then
        match parseOwned package with
        | .undef => none
        | .fail => some (-1, zeroReply, some (5 + package.length))
        | .ok r => some (0, r, some (5 + package.length))
      else some (-1, zeroReply, some 5) := by
  obtain ⟨hfirst, hsecond⟩ := tntReplyCb_frame package rest
  have htype := expectType_five [] hlen
  have hdec := decodeUintAt_five [] hlen
  rw [List.append_nil] at htype hdec
  have hrc : ¬ (package.length : Int) = -1 := by omega
  rw [tntReply, tntReplyLen_spec package hlen rest]
  simp only [show ¬ ((0 : Int) = 1) by decide, if_false, tntReplyFrom, hfirst, bind,
    Option.bind_some, show ¬ (5 : Int) = -1 by decide, htype, hdec]
  cases halloc : alloc package.length with
  | false => rfl
  | true =>
    simp only [Bool.not_true, Bool.false_eq_true, if_false, if_true, Option.bind_some, hsecond, hrc,
      ne_eq, not_true_eq_false, pure]
    cases parseOwned package <;> rfl

/-! ## §2 — what the parsers take.

Which bytes the header parser has taken, and that what the body parser keeps lies in the body. -/

/-- A header loop that ends normally has seen numbers under the keys it knows. -/
theorem hdrLoop_takes {kvs : List (Value × Value)} {pre bs rest : Bytes} {h h' : Hdr} {q : Nat}
    (henc : EncodesAll (flat kvs) bs)
    (hok : hdrLoop (pre ++ (bs ++ rest)) kvs.length pre.length h = .ok (h', q)) :
    ∃ pairs : List WirePair, wirePairs pairs = bs ∧ pairs.length = kvs.length ∧
      ∀ w ∈ pairs, HeaderNumber w := by
  induction kvs generalizing pre bs h with
  | nil =>
    cases henc
    exact ⟨[], rfl, rfl, by simp⟩
  | cons kv kvs ih =>
    obtain ⟨k, v⟩ := kv
    obtain ⟨kb, c, rfl, hk, henc'⟩ := henc.cons_cases
    obtain ⟨vb, bs', rfl, hv, hkvs⟩ := henc'.cons_cases
    -- the same memory, seen from the key, from the value and from the next pair
    have hmem : pre ++ (kb ++ (vb ++ bs') ++ rest) = pre ++ (kb ++ (vb ++ (bs' ++ rest))) := by
      simp only [List.append_assoc]
    have hmem' : pre ++ (kb ++ (vb ++ (bs' ++ rest))) = (pre ++ kb) ++ (vb ++ (bs' ++ rest)) := by
      simp only [List.append_assoc]
    have hmem'' : pre ++ (kb ++ (vb ++ (bs' ++ rest))) =
        ((pre ++ kb) ++ vb) ++ (bs' ++ rest) := by
      simp only [List.append_assoc]
    rw [hmem, List.length_cons] at hok
    simp only [hdrLoop, Outcome.bind_eq_ok, Prod.exists] at hok
    obtain ⟨⟨⟩, -, num, p, hnum, ⟨⟩, htype, hturn⟩ := hok
    obtain ⟨rfl, rfl⟩ := decodeUintAt_inv pre _ hk hnum
    rw [hmem'] at htype
    have hty := expectType_inv (pre ++ kb) _ hv htype
    obtain ⟨n, rfl⟩ := Value.eq_uint_of_ty hty
    have hdec := decodeUintAt_front (pre ++ kb) (bs' ++ rest) hv
    rw [← hmem'] at hdec
    -- whichever key it is, the loop goes on behind the number
    have hgo : ∀ h₁, hdrLoop (pre ++ (kb ++ (vb ++ (bs' ++ rest)))) kvs.length
        (pre ++ kb ++ vb).length h₁ = .ok (h', q) →
        (num % 2 ^ 32 = HeaderKey.code.num ∨ num % 2 ^ 32 = HeaderKey.sync.num ∨
          num % 2 ^ 32 = HeaderKey.schemaId.num) →
        ∃ pairs : List WirePair, wirePairs pairs = kb ++ (vb ++ bs') ∧
          pairs.length = kvs.length + 1 ∧ ∀ w ∈ pairs, HeaderNumber w := by
      intro h₁ hloop hkey
      rw [hmem''] at hloop
      obtain ⟨pairs, hbytes, hlength, hall⟩ := ih hkvs hloop
      refine ⟨⟨num, kb, .uint n, vb, hk, hv⟩ :: pairs, ?_, by rw [List.length_cons, hlength], ?_⟩
      · rw [wirePairs_cons, hbytes, WirePair.bytes, List.append_assoc]
      · intro w hw
        rcases List.mem_cons.mp hw with rfl | hw
        · exact ⟨hkey, n, rfl⟩
        · exact hall w hw
    split_ifs at hturn with hsync hcode hschema
    · rw [hdec] at hturn
      exact hgo _ hturn (Or.inr (Or.inl hsync))
    · rw [hdec] at hturn
      exact hgo _ hturn (Or.inl hcode)
    · rw [hdec] at hturn
      exact hgo _ hturn (Or.inr (Or.inr hschema))

/-- A checked map: its header, and the pairs behind it. -/
theorem checked_map {buf : Bytes} {k n p : Nat} (hcheck : mpCheck buf = some k)
    (htype : expectType buf 0 .map = .ok ()) (hmap : decodeMapAt buf 0 = .ok (n, p)) :
    ∃ head kvs bs rest, buf = head ++ (bs ++ rest) ∧ p = head.length ∧ n = kvs.length ∧
      EncodesAll (flat kvs) bs ∧
      ∃ b l ds, head = b :: ds ∧ lead b = .map l ∧ l.Holds kvs.length ds := by
  obtain ⟨v, bs, rest, rfl, henc, -⟩ := (mpCheck_iff _ _).mp hcheck
  have hty := expectType_inv [] rest henc htype
  obtain ⟨kvs, rfl⟩ := Value.eq_map_of_ty hty
  obtain ⟨b, l, ds, body, rfl, hlead, hl, hkvs⟩ := henc.map_cases
  have hd : mpDecodeMap (b :: ds ++ body ++ rest) = some (kvs.length, 1 + ds.length) :=
    (mpDecodeMap_iff _ _ _).mpr ⟨b, l, ds, body ++ rest, by simp, hlead, hl, rfl⟩
  rw [decodeMapAt, List.drop_zero, hd] at hmap
  simp only [Option.map_some, Outcome.ofReader, Outcome.ok.injEq, Prod.mk.injEq] at hmap
  obtain ⟨rfl, rfl⟩ := hmap
  refine ⟨b :: ds, kvs, body, rest, by simp, ?_, rfl, hkvs, b, l, ds, rfl, hlead, hl⟩
  rw [List.length_cons]
  omega

/-- **What `tnt_reply_hdr0` takes** is a map of numbers under the keys it knows, and it stops behind
that map. -/
theorem tntReplyHdr0_takes {buf : Bytes} {h : Hdr} {q : Nat}
    (hok : tntReplyHdr0 buf = .ok (h, q)) :
    ∃ m : WireMap, (∀ w ∈ m.pairs, HeaderNumber w) ∧ q = m.bytes.length ∧
      ∃ rest, buf = m.bytes ++ rest := by
  rw [tntReplyHdr0] at hok
  cases hcheck : mpCheck buf with
  | none => simp [hcheck] at hok
  | some k =>
    simp only [hcheck, Outcome.bind_eq_ok, Prod.exists] at hok
    obtain ⟨⟨⟩, htype, n, p, hmap, hloop⟩ := hok
    obtain ⟨head, kvs, bs, rest, rfl, rfl, rfl, hkvs, hhead⟩ := checked_map hcheck htype hmap
    obtain ⟨pairs, rfl, hlength, hall⟩ := hdrLoop_takes hkvs hloop
    rw [← hlength] at hhead hloop
    rw [hdrLoop_fold head rest hall] at hloop
    simp only [Outcome.ok.injEq, Prod.mk.injEq] at hloop
    exact ⟨⟨head, pairs, hhead⟩, hall, hloop.2.symm, rest, by simp [WireMap.bytes]⟩

/-- No pointer of the body leads behind `n`. -/
structure Body.Within (b : Body) (n : Nat) : Prop where
  error : ∀ s, b.error = some s → s.last ≤ n
  data : ∀ s, b.data = some s → s.last ≤ n
  metadata : ∀ s, b.metadata = some s → s.last ≤ n
  sqlinfo : ∀ s, b.sqlinfo = some s → s.last ≤ n

omit [Msgpuck] in
/-- Pointers stay in a longer string. -/
theorem Body.Within.mono {b : Body} {n n' : Nat} (h : b.Within n) (hle : n ≤ n') : b.Within n' where
  error s hs := (h.error s hs).trans hle
  data s hs := (h.data s hs).trans hle
  metadata s hs := (h.metadata s hs).trans hle
  sqlinfo s hs := (h.sqlinfo s hs).trans hle

/-- One turn of the body loop, at a value. -/
theorem bodyStep_within {v : Value} {pre bs rest : Bytes} {key q : Nat} {b b' : Body}
    (henc : Encodes v bs) (hb : b.Within pre.length)
    (hok : bodyStep (pre ++ (bs ++ rest)) key pre.length b = .ok (b', q)) :
    q = (pre ++ bs).length ∧ b'.Within q := by
  have hnext := nextAt_front pre rest henc
  have hmono : b.Within (pre ++ bs).length := hb.mono (by simp)
  have hlast : ∀ {s t : Span}, s.last ≤ (pre ++ bs).length → some s = some t →
      t.last ≤ (pre ++ bs).length := by
    intro s t hs heq
    rwa [← Option.some.inj heq]
  unfold bodyStep at hok
  split_ifs at hok
  · simp only [Outcome.bind_eq_ok, Prod.exists, Outcome.pure_eq, Outcome.ok.injEq,
      Prod.mk.injEq] at hok
    obtain ⟨⟨⟩, htype, first, p, hdec, rfl, rfl⟩ := hok
    -- the text of an error: the only value whose pointers are set apart
    have hty := expectType_inv pre rest henc htype
    obtain ⟨s, rfl⟩ := Value.eq_str_of_ty hty
    rw [decodeStrAt_front pre rest henc] at hdec
    simp only [Outcome.ok.injEq, Prod.mk.injEq] at hdec
    obtain ⟨-, rfl⟩ := hdec
    exact ⟨rfl, fun _ => hlast (Nat.le_refl _), hmono.data, hmono.metadata, hmono.sqlinfo⟩
  · simp only [hnext, Outcome.bind_eq_ok, Outcome.ok_bind, Outcome.pure_eq, Outcome.ok.injEq,
      Prod.mk.injEq] at hok
    obtain ⟨⟨⟩, -, rfl, rfl⟩ := hok
    exact ⟨rfl, hmono.error, fun _ => hlast (Nat.le_refl _), hmono.metadata, hmono.sqlinfo⟩
  · simp only [hnext, Outcome.bind_eq_ok, Outcome.ok_bind, Outcome.pure_eq, Outcome.ok.injEq,
      Prod.mk.injEq] at hok
    obtain ⟨⟨⟩, -, rfl, rfl⟩ := hok
    exact ⟨rfl, hmono.error, hmono.data, fun _ => hlast (Nat.le_refl _), hmono.sqlinfo⟩
  · simp only [hnext, Outcome.bind_eq_ok, Outcome.ok_bind, Outcome.pure_eq, Outcome.ok.injEq,
      Prod.mk.injEq] at hok
    obtain ⟨⟨⟩, -, rfl, rfl⟩ := hok
    exact ⟨rfl, hmono.error, hmono.data, hmono.metadata, fun _ => hlast (Nat.le_refl _)⟩
  · -- any other key is passed over
    simp only [hnext, Outcome.ok_bind, Outcome.pure_eq, Outcome.ok.injEq, Prod.mk.injEq] at hok
    obtain ⟨rfl, rfl⟩ := hok
    exact ⟨rfl, hmono⟩

/-- The loop points into the pairs it has gone through. -/
theorem bodyLoop_within {kvs : List (Value × Value)} {pre bs rest : Bytes} {b b' : Body} {q : Nat}
    (henc : EncodesAll (flat kvs) bs) (hb : b.Within pre.length)
    (hok : bodyLoop (pre ++ (bs ++ rest)) kvs.length pre.length b = .ok (b', q)) :
    b'.Within (pre ++ bs).length := by
  induction kvs generalizing pre bs b with
  | nil =>
    cases henc
    simp only [List.length_nil, bodyLoop, Outcome.ok.injEq, Prod.mk.injEq] at hok
    obtain ⟨rfl, -⟩ := hok
    rwa [List.append_nil]
  | cons kv kvs ih =>
    obtain ⟨k, v⟩ := kv
    obtain ⟨kb, c, rfl, hk, henc'⟩ := henc.cons_cases
    obtain ⟨vb, bs', rfl, hv, hkvs⟩ := henc'.cons_cases
    have hmem : pre ++ (kb ++ (vb ++ bs') ++ rest) = pre ++ (kb ++ (vb ++ (bs' ++ rest))) := by
      simp only [List.append_assoc]
    have hmem' : pre ++ (kb ++ (vb ++ (bs' ++ rest))) = (pre ++ kb) ++ (vb ++ (bs' ++ rest)) := by
      simp only [List.append_assoc]
    have hmem'' : (pre ++ kb) ++ (vb ++ (bs' ++ rest)) = (pre ++ kb ++ vb) ++ (bs' ++ rest) := by
      simp only [List.append_assoc]
    rw [hmem, List.length_cons] at hok
    simp only [bodyLoop, Outcome.bind_eq_ok, Prod.exists] at hok
    -- one turn: the key, the value under it, and the rest of the pairs
    obtain ⟨num, p, hnum, b₁, p₁, hstep, hloop⟩ := hok
    obtain ⟨-, rfl⟩ := decodeUintAt_inv pre _ hk hnum
    rw [hmem'] at hstep hloop
    -- what this pair stores ends where its value does
    obtain ⟨rfl, hwithin⟩ := bodyStep_within hv (hb.mono (by simp)) hstep
    rw [hmem''] at hloop
    have hrest := ih hkvs
      (⟨hwithin.error, hwithin.data, hwithin.metadata, hwithin.sqlinfo⟩ : Body.Within
        { b₁ with bitmap := setBit b₁.bitmap (num % 2 ^ 32) } (pre ++ kb ++ vb).length) hloop
    simpa only [List.append_assoc] using hrest

/-- **`tnt_reply_body0` points nowhere but into the string it was given.**  Every pointer it stores
ends where the value it just passed over ends. -/
theorem tntReplyBody0_within {buf : Bytes} {b : Body} {q : Nat}
    (hok : tntReplyBody0 buf = .ok (b, q)) : b.Within buf.length := by
  rw [tntReplyBody0] at hok
  cases hcheck : mpCheck buf with
  | none => simp [hcheck] at hok
  | some k =>
    simp only [hcheck, Outcome.bind_eq_ok, Prod.exists] at hok
    obtain ⟨⟨⟩, htype, n, p, hmap, hloop⟩ := hok
    obtain ⟨head, kvs, bs, rest, rfl, rfl, rfl, hkvs, -⟩ := checked_map hcheck htype hmap
    have hnone : Body.Within ⟨none, none, none, none, some 0⟩ head.length :=
      ⟨by simp, by simp, by simp, by simp⟩
    exact (bodyLoop_within hkvs hnone hloop).mono (by simp)

/-! ## §3 — the two parsers side by side.

On the same package.  Where one refuses so does the other, and where both accept the fields are
compared one by one. -/

/-- The bytes between two pointers. -/
def Span.bytes (buf : Bytes) (s : Span) : Bytes := (buf.drop s.first).take (s.last - s.first)

/-- Two pairs of pointers, one into `a` and one into `b`, are `NULL` together or delimit the same
bytes. -/
def SameBytes (a b : Bytes) (x y : Option Span) : Prop := x.map (Span.bytes a) = y.map (Span.bytes b)

/-- The reply `r`, which owns its bytes, and the reply `r₀` into `buf` say the same. -/
structure SaysAs (r : TntReply) (buf : Bytes) (r₀ : TntReply) : Prop where
  sync : r.sync = r₀.sync
  code : r.code = r₀.code
  schemaId : r.schemaId = r₀.schemaId
  bitmap : r.bitmap = r₀.bitmap
  error : SameBytes (r.buf.getD []) buf r.error r₀.error
  data : SameBytes (r.buf.getD []) buf r.data r₀.data
  metadata : SameBytes (r.buf.getD []) buf r.metadata r₀.metadata
  sqlinfo : SameBytes (r.buf.getD []) buf r.sqlinfo r₀.sqlinfo

/-- The two parsers agree on a buffer: the same status, and after a 0 the same `*off` and replies
that say the same.  (Undefined behaviour counts as a status of its own.) -/
def ParsersAgree (alloc : Nat → Bool) (r r₀ : TntReply) (buf : Bytes) : Prop :=
  match tntReply alloc r buf, tntReply0 r₀ buf with
  | some (rc, r', off), some (rc₀, r₀', off₀) =>
    rc = rc₀ ∧ (rc = 0 → off = off₀ ∧ SaysAs r' buf r₀')
  | none, none => True
  | _, _ => False

/-- A package that is a header `tnt_reply_hdr0` takes, and nothing behind it. -/
def HeaderAlone (package : Bytes) : Prop :=
  ∃ m : WireMap, (∀ w ∈ m.pairs, HeaderNumber w) ∧ package = m.bytes

/-- All pointers of the reply are `NULL`. -/
structure TntReply.Blank (r : TntReply) : Prop where
  error : r.error = none
  data : r.data = none
  metadata : r.metadata = none
  sqlinfo : r.sqlinfo = none

omit [Msgpuck] in
/-- A span of the package, seen in the buffer the package lies in. -/
theorem sameBytes_shift (before package rest : Bytes) (base : Nat) {x : Option Span}
    (hin : ∀ s, x = some s → base + s.last ≤ package.length) :
    SameBytes package (before ++ (package ++ rest)) (x.map (Span.shift base))
      (x.map (Span.shift (before.length + base))) := by
  cases x with
  | none => rfl
  | some s =>
    have hle := hin s rfl
    have hdrop : (before ++ (package ++ rest)).drop (before.length + base + s.first) =
        (package ++ rest).drop (base + s.first) := by
      rw [Nat.add_assoc, List.drop_append, List.drop_eq_nil_of_le (by omega), List.nil_append,
        Nat.add_sub_cancel_left]
    have hcount : before.length + base + s.last - (before.length + base + s.first) =
        base + s.last - (base + s.first) := by omega
    show some _ = some _
    rw [Option.some.injEq]
    show (package.drop (base + s.first)).take (base + s.last - (base + s.first)) =
      ((before ++ (package ++ rest)).drop (before.length + base + s.first)).take
        (before.length + base + s.last - (before.length + base + s.first))
    rw [hdrop, hcount, List.drop_append, List.take_append_of_le_length]
    rw [List.length_drop]
    omega

omit [Msgpuck] in
/-- Header by header: which replies are told apart by what `tnt_reply0` leaves alone. -/
theorem saysAs_hdr_iff (h : Hdr) (r₀ : TntReply) (package buf : Bytes) :
    SaysAs (({ zeroReply with buf := some package } : TntReply).setHdr h) buf (r₀.setHdr h) ↔
      r₀.Blank := by
  have hnull : ∀ x : Option Span, SameBytes package buf none x ↔ x = none := by
    intro x
    cases x <;> simp [SameBytes]
  constructor
  · intro hsays
    exact ⟨(hnull _).mp hsays.error, (hnull _).mp hsays.data, (hnull _).mp hsays.metadata,
      (hnull _).mp hsays.sqlinfo⟩
  · intro hblank
    refine ⟨rfl, rfl, rfl, rfl, ?_, ?_, ?_, ?_⟩
    · exact (hnull _).mpr hblank.error
    · exact (hnull _).mpr hblank.data
    · exact (hnull _).mpr hblank.metadata
    · exact (hnull _).mpr hblank.sqlinfo

omit [Msgpuck] in
/-- With a body, everything is written: nothing of `r₀` is left. -/
theorem saysAs_body (h : Hdr) (r₀ : TntReply) {b : Body} (before package rest : Bytes)
    {hdrLength : Nat} (hle : hdrLength ≤ package.length)
    (hb : b.Within (package.length - hdrLength)) :
    SaysAs ((({ zeroReply with buf := some package } : TntReply).setHdr h).setBody hdrLength b)
      (before ++ (package ++ rest)) ((r₀.setHdr h).setBody (before.length + hdrLength) b) := by
  refine ⟨rfl, rfl, rfl, rfl, ?_, ?_, ?_, ?_⟩
  · exact sameBytes_shift before package rest hdrLength
      fun s hs => by have := hb.error s hs; omega
  · exact sameBytes_shift before package rest hdrLength
      fun s hs => by have := hb.data s hs; omega
  · exact sameBytes_shift before package rest hdrLength
      fun s hs => by have := hb.metadata s hs; omega
  · exact sameBytes_shift before package rest hdrLength
      fun s hs => by have := hb.sqlinfo s hs; omega

/-- A package of no bytes, for which there may be no block: both parsers refuse it. -/
theorem agree_nothing {alloc : Nat → Bool} (r r₀ : TntReply) (rest : Bytes)
    (halloc : alloc 0 ≠ true) : ParsersAgree alloc r r₀ (0xce :: be 4 0 ++ ([] ++ rest)) := by
  have hcheck : mpCheck [] = none := by
    cases hc : mpCheck ([] : Bytes) with
    | none => rfl
    | some k =>
      obtain ⟨v, bs, tail, hnil, henc, -⟩ := (mpCheck_iff _ _).mp hc
      exact absurd (List.append_eq_nil_iff.mp hnil.symm).1 henc.ne_nil
  have hplace : tntReply0 r₀ (0xce :: be 4 0 ++ ([] ++ rest)) = some (-1, r₀, none) := by
    have hframe := tntReply0_frame r₀ [] (by decide) rest
    rw [tntReplyHdr0, hcheck] at hframe
    exact hframe
  have hcopy : tntReply alloc r (0xce :: be 4 0 ++ ([] ++ rest)) = some (-1, zeroReply, some 5) := by
    have hframe := @tntReply_frame _ alloc r [] (by decide) rest
    rw [List.length_nil, if_neg halloc] at hframe
    exact hframe
  rw [ParsersAgree, hcopy, hplace]
  exact ⟨rfl, fun h => absurd h (by decide)⟩

/-- **When the two parsers agree** on a complete reply, whatever follows it and whatever the two
structures held: exactly if the reply has a body, or is refused, or the structure that is parsed
into in place had no pointers.  `tnt_reply` parses a copy of the message and `tnt_reply0` the
message in place, and the latter does not clear the structure it is given.  Without a body there is
nothing that would set the pointers again, and those that were there before are taken for the
reply's. -/
theorem tntReply_agrees_iff {alloc : Nat → Bool} (r r₀ : TntReply) {package : Bytes}
    (hmem : ∀ n, 0 < n → alloc n = true) (hlen : package.length < 2 ^ 32) (rest : Bytes) :
    ParsersAgree alloc r r₀ (0xce :: be 4 package.length ++ (package ++ rest)) ↔
      (HeaderAlone package → r₀.Blank) := by
  by_cases halloc : alloc package.length = true
  swap
  · -- only for no bytes at all is there no memory
    obtain rfl : package = [] := by
      by_contra hne
      exact halloc (hmem _ (List.length_pos_iff.mpr hne))
    have hno : ¬ HeaderAlone [] := by
      rintro ⟨m, -, hnil⟩
      exact m.encodes.ne_nil hnil.symm
    simp only [hno, false_imp_iff, iff_true]
    exact agree_nothing r r₀ rest halloc
  have hfive : (0xce :: be 4 package.length).length = iprotoHdrSize := by simp [iprotoHdrSize]
  rw [ParsersAgree, tntReply_frame alloc r hlen, if_pos halloc, tntReply0_frame r₀ package hlen]
  have hrefused : ∀ {o : Outcome (Hdr × Nat)}, tntReplyHdr0 package = o → (∀ a, o ≠ .ok a) →
      ¬ HeaderAlone package := by
    rintro o ho hne ⟨m, hm, rfl⟩
    have hok := tntReplyHdr0_fold hm []
    rw [List.append_nil, ho] at hok
    exact hne _ hok
  cases hhdr : tntReplyHdr0 package with
  | undef =>
    have hno := hrefused hhdr (by simp)
    simp [parseOwned, hhdr, hno]
  | fail =>
    have hno := hrefused hhdr (by simp)
    simp [parseOwned, hhdr, hno]
  | ok p =>
    obtain ⟨h, hdrLength⟩ := p
    obtain ⟨m, hm, rfl, tail, htail⟩ := tntReplyHdr0_takes hhdr
    by_cases hbody : package.length = m.bytes.length
    · -- no body: `tnt_reply0` writes the header only
      have halone : HeaderAlone package := by
        refine ⟨m, hm, ?_⟩
        have hnil : tail = [] := by
          rw [htail, List.length_append] at hbody
          exact List.eq_nil_of_length_eq_zero (by omega)
        rw [htail, hnil, List.append_nil]
      have hparse : parseOwned package =
          .ok (({ zeroReply with buf := some package } : TntReply).setHdr h) := by
        simp only [parseOwned, hhdr, Outcome.ok_bind, if_pos hbody]
      simp only [hparse, if_neg (not_not_intro hbody), true_and, forall_const, halone]
      exact saysAs_hdr_iff h r₀ package _
    · -- a body behind the header
      have hno : ¬ HeaderAlone package := by
        rintro ⟨m', hm', rfl⟩
        have hok := tntReplyHdr0_fold hm' []
        rw [List.append_nil, hhdr] at hok
        simp only [Outcome.ok.injEq, Prod.mk.injEq] at hok
        exact hbody hok.2.symm
      have hle : m.bytes.length ≤ package.length := by
        rw [htail, List.length_append]
        omega
      have hparse : parseOwned package = (tntReplyBody0 (package.drop m.bytes.length) >>= fun p =>
          .ok ((({ zeroReply with buf := some package } : TntReply).setHdr h).setBody
            m.bytes.length p.1)) := by
        simp only [parseOwned, hhdr, Outcome.ok_bind, if_neg hbody, Outcome.pure_eq]
      simp only [hparse, if_pos hbody, hno, false_imp_iff, iff_true, ne_eq]
      cases hbody0 : tntReplyBody0 (package.drop m.bytes.length) with
      | undef => simp
      | fail => simp
      | ok p =>
        obtain ⟨b, q⟩ := p
        have hwithin := tntReplyBody0_within hbody0
        rw [List.length_drop] at hwithin
        simp only [Outcome.ok_bind, true_and, forall_const]
        rw [← hfive]
        exact saysAs_body h r₀ (0xce :: be 4 package.length) package rest hle hwithin

end Parser

/-- `{TNT_SYNC: 8, TNT_CODE: 0}`, and no body. -/
def pongPackage : Bytes := [0x82, 0x01, 0x08, 0x00, 0x00]

/-- A reply without a body, and fresh structures. -/
theorem tntReply_agrees_fresh :
    @ParsersAgree Msgpuck.reference (fun n => decide (0 < n)) zeroReply zeroReply
      (0xce :: be 4 pongPackage.length ++ (pongPackage ++ [0xce])) :=
  (@tntReply_agrees_iff Msgpuck.reference (fun n => decide (0 < n)) zeroReply zeroReply pongPackage
    (fun _ hn => decide_eq_true hn) (by decide) [0xce]).mpr fun _ => ⟨rfl, rfl, rfl, rfl⟩

/-- What `tnt_reply0` leaves after the error reply of `tntReply0_spec`. -/
def errorReply : TntReply :=
  { zeroReply with
    bitmap := some 0x2000000000003, code := 1, sync := 7, error := some ⟨15, 17⟩ }

/-- The reply to a ping, parsed into the structure of an earlier error: in place it is still one. -/
theorem tntReply_disagrees_reused :
    (∃ r, @tntReply0 Msgpuck.reference zeroReply [0xce, 0, 0, 0, 0x0c, 0x82, 0x01, 0x07, 0x00, 0xcd,
        0x80, 0x01, 0x81, 0x31, 0xa2, 0x6e, 0x6f] = some (0, r, some 17) ∧ r = errorReply) ∧
      ¬ @ParsersAgree Msgpuck.reference (fun n => decide (0 < n)) zeroReply errorReply
        (0xce :: be 4 pongPackage.length ++ (pongPackage ++ [])) := by
  let _ := Msgpuck.reference
  refine ⟨⟨_, by decide +kernel, rfl⟩, ?_⟩
  intro hagree
  have hcopy : tntReply (fun n => decide (0 < n)) zeroReply
      (0xce :: be 4 pongPackage.length ++ (pongPackage ++ [])) =
        some (0, { zeroReply with bitmap := some 3, buf := some pongPackage, sync := 8 },
          some 10) := by decide +kernel
  have hplace : tntReply0 errorReply (0xce :: be 4 pongPackage.length ++ (pongPackage ++ [])) =
      some (0, { errorReply with bitmap := some 3, code := 0, sync := 8 }, some 10) := by
    decide +kernel
  rw [ParsersAgree, hcopy, hplace] at hagree
  have herror := (hagree.2 rfl).2.error
  simp [SameBytes, errorReply, zeroReply] at herror

end TarantoolC.Reply
