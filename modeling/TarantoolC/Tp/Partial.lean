/-
# TarantoolC.Tp.Partial — the first bytes of a response, and `tp_reply`.

A response arrives in pieces, and `tp_reply` is documented to return 0 as long as it is not there as
a whole.  It asks msgpuck for the length first: the check that finds a length cut off is the one that
finds it broken, so one to four bytes are an error.  From the fifth byte on the comparison of the
lengths answers, in 32 bits: a response of `2^32` bytes or more gets past it whatever is there.

`tpReply_partial`: the answers at every cut of every response, behind every whole one, and what a
reader gets that is cut at none of the wrong places.

What a caller can rely on, then, is a matter of where its reads happen to end.  `Cut` says of a
number of bytes that they end at a place `tp_reply` has an answer for, and `CutWell` of a sequence
of reads that all of them do.  A reader on such reads gets every response once and in order
(`reader_spec`); on any other it gets an error for bytes that are fine.

Nothing is asked of the keys of a response but their 32 bits.  In C the shift by a key of 64 or more
is undefined and the call with it; in the model it makes the bitmap undefined and nothing else
(`TarantoolC.Tp.Reply`).  So of a response with such a key this says what `tp_reply` returns where
the shift does no further harm.
-/
import TarantoolC.Tp.Reply
import TarantoolC.Reply.Feed
import TarantoolC.Net

namespace TarantoolC.Tp

open MsgPack Msgpuck Reply Net

/-! ## §1 — one call.

By where the cut is: inside the length, inside the header, inside the body.  In the last two the
length is there, so the comparison decides, unless it wraps around. -/

section Calls

variable [Msgpuck]

/-- What `tp_reply` returns. -/
def tpReplyRc (buf : Bytes) : Option Int :=
  match tpReply buf with
  | .undef => none
  | .fail => some (-1)
  | .ok (n, _) => some n

/-- Of a value that is cut off there is no more than a part. -/
theorem mpCheck_cut {v : Value} {bs : Bytes} (h : Encodes v bs) {k : Nat} (hk : k < bs.length) :
    mpCheck (bs.take k) = none := by
  cases hcheck : mpCheck (bs.take k) with
  | none => rfl
  | some n =>
    rcases (mpCheck_iff _ _).mp hcheck with ⟨w, cs, rest, heq, hw, -⟩
    have hsplit : bs ++ [] = cs ++ (rest ++ bs.drop k) := by
      rw [List.append_nil, ← List.append_assoc, ← heq, List.take_append_drop]
    have hnil := (h.unique hw hsplit).2.2
    have hlen := congrArg List.length hnil
    rw [List.length_nil, List.length_append, List.length_drop] at hlen
    omega

/-- A map that is cut off is no map. -/
theorem openMap_cut {m : WireMap} (pre : Bytes) {k : Nat} (hk : k < m.bytes.length) :
    openMap (pre ++ m.bytes.take k) pre.length = .fail := by
  rw [openMap, List.drop_left, mpCheck_cut m.encodes hk]

omit [Msgpuck] in
/-- The two parsers find the data in the same place. -/
theorem turn_data {base : Nat} {b : Body} {r : TpResponse} (h : r.data = b.data.map (Span.shift base))
    (w : WirePair) {stop : Nat} (hstop : w.bytes.length ≤ stop) :
    (r.turn w (base + stop)).data = (b.turn w stop).data.map (Span.shift base) := by
  have hval : w.valBytes.length ≤ stop := by
    rw [WirePair.bytes, List.length_append] at hstop
    omega
  have hkeys : Proto.ResponseKey.error.num = ResponseKey.error.num ∧
      Proto.ResponseKey.data.num = ResponseKey.data.num := ⟨rfl, rfl⟩
  rw [Body.turn, TpResponse.turn, Body.record, hkeys.1, hkeys.2]
  split_ifs with k1 k2 k3 k4
  · exact h
  · exact congrArg some (shift_span hval)
  · exact h
  · exact h
  · exact h

variable (w : WireReply)

omit [Msgpuck] in
/-- A response is five bytes of length and the package, ... -/
theorem reply_length : w.bytes.length = 5 + w.package.length := by
  rw [w.bytes_eq, List.length_append, w.prefix_length]
  rfl

omit [Msgpuck] in
/-- ... whose length has 32 bits. -/
theorem package_lt : w.package.length < 2 ^ 32 := by
  rw [w.package_length]
  exact w.length_lt

omit [Msgpuck] in
/-- The bytes from the fifth on. -/
theorem reply_take {k : Nat} (hk : 5 ≤ k) :
    w.bytes.take k = (0xce :: be 4 w.package.length) ++ w.package.take (k - 5) := by
  have hmessage : w.bytes = message w.package := w.bytes_eq
  rw [hmessage, message_take hk]

/-- One to four bytes are no length. -/
theorem tpReply_short {k : Nat} (hpos : 0 < k) (hk : k < 5) : tpReply (w.bytes.take k) = .fail := by
  have hlen := reply_length w
  have hfive := w.prefix_length
  have htake : w.bytes.take k = (0xce :: be 4 w.package.length).take k := by
    rw [w.bytes_eq, List.take_append_of_le_length]
    rw [hfive, iprotoHdrSize]
    omega
  have hcut : (w.bytes.take k).length = k := List.length_take_of_le (by omega)
  have hcheck : mpCheck (w.bytes.take k) = none := by
    rw [htake]
    apply mpCheck_cut (encodes_uint_five (package_lt w))
    rw [hfive]
    exact hk
  rw [tpReply, if_neg (by omega), hcheck]

/-- From the fifth byte on the lengths are compared. -/
theorem tpReply_waits {k : Nat} (hfive : 5 ≤ k) (hk : k < w.bytes.length)
    (hfits : w.bytes.length < 2 ^ 32) : tpReply (w.bytes.take k) = .ok (0, zeroResponse) := by
  have hlen := reply_length w
  have hcut : (w.bytes.take k).length = k := List.length_take_of_le (by omega)
  have henc := encodes_uint_five (package_lt w)
  have hcheck := mpCheck_front henc (w.package.take (k - 5))
  have htype := expectType_five (w.package.take (k - 5)) (package_lt w)
  have hdec := decodeUintAt_five (w.package.take (k - 5)) (package_lt w)
  rw [← reply_take w hfive] at hcheck htype hdec
  have hmod : w.package.length % 2 ^ 32 = w.package.length := Nat.mod_eq_of_lt (package_lt w)
  have hless : (w.bytes.take k).length < (w.package.length + 5) % 2 ^ 32 := by
    rw [hcut, Nat.mod_eq_of_lt (by omega)]
    omega
  rw [tpReply, if_neg (by omega), hcheck]
  simp only [htype, hdec, Outcome.ok_bind, hmod, if_pos hless, Outcome.pure_eq]

/-- A response that is too long for the comparison is parsed, and found broken where it is cut. -/
theorem tpReply_wraps {k : Nat} (hfive : 5 ≤ k) (hk : k < w.bytes.length)
    (hlong : 2 ^ 32 ≤ w.bytes.length) : tpReply (w.bytes.take k) = .fail := by
  have hlen := reply_length w
  have hlt := package_lt w
  have hplen := w.package_length
  have hpre := w.prefix_length
  rw [iprotoHdrSize] at hpre
  rw [reply_take w hfive]
  by_cases hhdr : k - 5 < w.hdr.bytes.length
  · -- in the header
    have htake : w.package.take (k - 5) = w.hdr.bytes.take (k - 5) :=
      List.take_append_of_le_length (by omega)
    have hcheck := mpCheck_front (encodes_uint_five hlt) (w.package.take (k - 5))
    have htype := expectType_five (w.package.take (k - 5)) hlt
    have hdec := decodeUintAt_five (w.package.take (k - 5)) hlt
    have hopen := @openMap_cut _ w.hdr (0xce :: be 4 w.package.length) (k - 5) hhdr
    rw [← htake, hpre] at hopen
    have hmod : w.package.length % 2 ^ 32 = w.package.length := Nat.mod_eq_of_lt hlt
    have hcut : ((0xce :: be 4 w.package.length) ++ w.package.take (k - 5)).length = k := by
      rw [List.length_append, hpre, List.length_take_of_le (by omega)]
      omega
    have hpass : ¬ ((0xce :: be 4 w.package.length) ++ w.package.take (k - 5)).length <
        (w.package.length + 5) % 2 ^ 32 := by omega
    rw [tpReply, if_neg (by omega), hcheck]
    simp only [htype, hdec, Outcome.ok_bind, hmod, if_neg hpass, hopen, Outcome.fail_bind]
  · -- behind it: there is a body
    cases hbody : w.body with
    | none =>
      rw [hbody] at hplen
      have hnone : w.package.length = w.hdr.bytes.length := hplen
      omega
    | some m =>
      rw [hbody] at hplen
      have hsum : w.package.length = w.hdr.bytes.length + m.bytes.length := hplen
      have htake : w.package.take (k - 5) =
          w.hdr.bytes ++ m.bytes.take (k - 5 - w.hdr.bytes.length) := by
        rw [WireReply.package, hbody, bodyBytes, List.take_append,
          List.take_of_length_le (by omega)]
      have hheader := tpReply_header w.wf.hdr hlt (m.bytes.take (k - 5 - w.hdr.bytes.length))
        (by omega)
      have hopen := @openMap_cut _ m (0xce :: be 4 w.package.length ++ w.hdr.bytes)
        (k - 5 - w.hdr.bytes.length) (by omega)
      have hend : (0xce :: be 4 w.package.length ++ w.hdr.bytes).length ≠ w.package.length + 5 := by
        rw [List.length_append, hpre]
        omega
      rw [htake, ← List.append_assoc, hheader, if_neg hend, afterHeader, hopen]
      rfl

/-- **A whole response**, with anything behind it. -/
theorem tpReply_whole (rest : Bytes) :
    ∃ r, tpReply (w.bytes ++ rest) =
      .ok (if w.body = none then w.bytes.length % 2 ^ 32 else w.bytes.length, r) := by
  have hlen := reply_length w
  have hlt := package_lt w
  have hplen := w.package_length
  have hpre := w.prefix_length
  rw [iprotoHdrSize] at hpre
  set before := 0xce :: be 4 w.package.length ++ w.hdr.bytes with hbefore
  have hblen : before.length = 5 + w.hdr.bytes.length := by
    rw [hbefore, List.length_append, hpre]
  have hbuf : w.bytes ++ rest = before ++ (bodyBytes w.body ++ rest) := by
    rw [w.bytes_eq, hbefore, List.append_assoc, List.append_assoc, WireReply.package,
      List.append_assoc]
  have hsize := @List.length_append _ (bodyBytes w.body) rest
  have hheader := tpReply_header w.wf.hdr hlt (bodyBytes w.body ++ rest) (by omega)
  simp only [← hbefore] at hheader
  have hagree : HeadersAgree (w.hdr.pairs.foldl Hdr.record ⟨0, 0, 0, some 0⟩)
      (w.hdr.pairs.foldl TpResponse.recordHeader zeroResponse) :=
    HeadersAgree.fold ⟨rfl, rfl, rfl, ⟨0, rfl⟩, rfl, rfl⟩ w.wf.hdr
  rw [hbuf, hheader]
  cases hbody : w.body with
  | none =>
    have hsame : w.package.length = w.hdr.bytes.length := by
      rw [hplen, hbody]
      rfl
    rw [if_pos (by omega), if_pos rfl, hlen, Nat.add_comm]
    exact ⟨_, rfl⟩
  | some m =>
    have hpos := m.encodes.length_pos
    have hsum : w.package.length = w.hdr.bytes.length + m.bytes.length := by
      rw [hplen, hbody]
      rfl
    -- the data begins behind what is in front of the body, whatever follows it
    have hstart : (w.hdr.pairs.foldl TpResponse.recordHeader zeroResponse).data = none := hagree.data
    rcases bodies_keep (fun b r => r.data = b.data.map (Span.shift before.length)) before rest
      (w.wf.body m hbody) (fun w _ b r stop hstop hdata => turn_data hdata w hstop)
      (fun _ _ hdata => hdata) hstart with ⟨b, r, tp, -, hafter, -⟩
    have hend : (before ++ m.bytes).length = w.bytes.length := by
      rw [List.length_append]
      omega
    rw [if_neg (by omega), if_neg (by simp), ← hend]
    exact ⟨tp, hafter⟩

/-- The answer to a part of a response. -/
theorem tpReplyRc_cut_iff {k : Nat} (hk : k < w.bytes.length) :
    tpReplyRc (w.bytes.take k) = some 0 ↔ k = 0 ∨ 5 ≤ k ∧ w.bytes.length < 2 ^ 32 := by
  rcases Nat.eq_zero_or_pos k with rfl | hpos
  · exact iff_of_true rfl (.inl rfl)
  by_cases hfive : 5 ≤ k
  · by_cases hfits : w.bytes.length < 2 ^ 32
    · refine iff_of_true ?_ (.inr ⟨hfive, hfits⟩)
      rw [tpReplyRc, tpReply_waits w hfive hk hfits]
      rfl
    · refine iff_of_false ?_ (by omega)
      rw [tpReplyRc, tpReply_wraps w hfive hk (Nat.le_of_not_lt hfits)]
      decide
  · refine iff_of_false ?_ (by omega)
    rw [tpReplyRc, tpReply_short w hpos (Nat.lt_of_not_le hfive)]
    decide

/-- ... and to a whole one. -/
theorem tpReplyRc_whole_iff (next : Bytes) :
    tpReplyRc (w.bytes ++ next) = some (w.bytes.length : Int) ↔
      w.body ≠ none ∨ w.bytes.length < 2 ^ 32 := by
  rcases tpReply_whole w next with ⟨r, hr⟩
  rw [tpReplyRc, hr]
  simp only [Option.some.injEq, Int.natCast_inj]
  split_ifs with hbody
  · have hno : ¬ w.body ≠ none := fun hne => hne hbody
    constructor
    · intro heq
      right
      omega
    · rintro (hne | hfits)
      · exact absurd hne hno
      · exact Nat.mod_eq_of_lt hfits
  · exact iff_of_true rfl (.inl hbody)

end Calls

/-! ## §2 — a reader.

It appends what arrives and asks for responses until it is told that there is none.  The induction
is on the arrivals, with the bytes left over as the state. -/

section Reader

variable [Msgpuck]

/-- Calls of `tp_reply` as long as a response is there: the responses, and the bytes that are left;
`none` for an error. -/
def drain : Nat → Bytes → Option (List Bytes × Bytes)
  | 0, _ => none
  | fuel + 1, acc =>
    match tpReply acc with
    | .ok (n, _) =>
      if n = 0 then some ([], acc)
      else do
        let (got, left) ← drain fuel (acc.drop n)
        return (acc.take n :: got, left)
    | _ => none

/-- A reader that appends the bytes as they arrive, and asks after every arrival. -/
def reader : Bytes → List Bytes → Option (List Bytes × Bytes)
  | acc, [] => some ([], acc)
  | acc, piece :: pieces => do
    let (got, left) ← drain ((acc ++ piece).length + 1) (acc ++ piece)
    let (more, left) ← reader left pieces
    return (got ++ more, left)

end Reader

/-- The bytes of the responses, one after the other. -/
def stream (ws : List WireReply) : Bytes := (ws.map WireReply.bytes).flatten

/-- Every call on the first `c` bytes is one that `tp_reply` answers. -/
def Cut : List WireReply → Nat → Prop
  | [], _ => True
  | w :: ws, c =>
    if c < w.bytes.length then c = 0 ∨ 5 ≤ c ∧ w.bytes.length < 2 ^ 32
    else (w.body ≠ none ∨ w.bytes.length < 2 ^ 32) ∧ Cut ws (c - w.bytes.length)

/-- ... after every arrival. -/
def CutWell (ws : List WireReply) : Nat → List Bytes → Prop
  | _, [] => True
  | c, piece :: pieces => Cut ws (c + piece.length) ∧ CutWell ws (c + piece.length) pieces

/-- No whole response is left. -/
def Settled : List WireReply → Bytes → Prop
  | [], left => left = []
  | w :: _, left => left.length < w.bytes.length

/-- Responses one after the other, ... -/
theorem stream_cons (w : WireReply) (ws : List WireReply) :
    stream (w :: ws) = w.bytes ++ stream ws := by
  rw [stream, List.map_cons, List.flatten_cons]
  rfl

/-- ... in two parts. -/
theorem stream_append (ws ws' : List WireReply) : stream (ws ++ ws') = stream ws ++ stream ws' := by
  rw [stream, List.map_append, List.flatten_append]
  rfl

/-- The responses that have been read do not matter to the next. -/
theorem Cut.behind {done left : List WireReply} {c : Nat}
    (h : Cut (done ++ left) ((stream done).length + c)) : Cut left c := by
  induction done with
  | nil =>
    have hzero : (stream []).length + c = c := Nat.zero_add c
    rwa [hzero] at h
  | cons w done ih =>
    rw [List.cons_append, Cut, stream_cons, List.length_append, if_neg (by omega)] at h
    apply ih
    have hrest := h.2
    rwa [show w.bytes.length + (stream done).length + c - w.bytes.length =
      (stream done).length + c by omega] at hrest

/-- Reads that end well do so for the responses that are left. -/
theorem CutWell.behind {done left : List WireReply} {c : Nat} {pieces : List Bytes}
    (h : CutWell (done ++ left) ((stream done).length + c) pieces) : CutWell left c pieces := by
  induction pieces generalizing c with
  | nil => trivial
  | cons piece pieces ih =>
    rw [CutWell, Nat.add_assoc] at h
    exact ⟨h.1.behind, ih h.2⟩

section Runs

variable [Msgpuck]

/-- **The calls after one arrival** get the responses that are there.  By induction on the responses
that are there as a whole. -/
theorem drain_spec (ws : List WireReply) {c fuel : Nat} (hc : c ≤ (stream ws).length)
    (hcut : Cut ws c) (hfuel : c < fuel) :
    ∃ done left tail, ws = done ++ left ∧
      drain fuel ((stream ws).take c) = some (done.map WireReply.bytes, tail) ∧
      (stream ws).take c = stream done ++ tail ∧ Settled left tail := by
  induction ws generalizing c fuel with
  | nil =>
    cases fuel with
    | zero => omega
    | succ fuel =>
      refine ⟨[], [], [], rfl, ?_, ?_, rfl⟩
      · rw [stream, List.map_nil, List.flatten_nil, List.take_nil]
        rfl
      · rw [stream, List.map_nil, List.flatten_nil, List.take_nil]
        rfl
  | cons w ws ih =>
    cases fuel with
    | zero => omega
    | succ fuel =>
      rw [stream_cons] at hc ⊢
      rw [Cut] at hcut
      by_cases hpart : c < w.bytes.length
      · rw [if_pos hpart] at hcut
        have htake : (w.bytes ++ stream ws).take c = w.bytes.take c :=
          List.take_append_of_le_length (by omega)
        have hzero : tpReply (w.bytes.take c) = .ok (0, zeroResponse) := by
          rcases hcut with rfl | ⟨hfive, hfits⟩
          · rfl
          · exact tpReply_waits w hfive hpart hfits
        -- a part of the first response: the loop stops with it
        refine ⟨[], w :: ws, w.bytes.take c, rfl, ?_, htake, ?_⟩
        · rw [htake, drain, hzero]
          rfl
        · show (w.bytes.take c).length < w.bytes.length
          rw [List.length_take_of_le (by omega)]
          exact hpart
      · rw [if_neg hpart] at hcut
        have hpos := reply_length w
        have htake : (w.bytes ++ stream ws).take c =
            w.bytes ++ (stream ws).take (c - w.bytes.length) := by
          rw [List.take_append, List.take_of_length_le (by omega)]
        rw [List.length_append] at hc
        -- the whole of it, and the loop goes on with what is behind it
        rcases @ih (c - w.bytes.length) fuel (by omega) hcut.2 (by omega) with
          ⟨done, left, tail, rfl, hdrain, hsplit, hsettled⟩
        refine ⟨w :: done, left, tail, rfl, ?_, ?_, hsettled⟩
        · rcases tpReply_whole w ((stream (done ++ left)).take (c - w.bytes.length)) with ⟨r, hr⟩
          have hn : (if w.body = none then w.bytes.length % 2 ^ 32 else w.bytes.length) =
              w.bytes.length := by
            split_ifs with hbody
            · rcases hcut.1 with hne | hfits
              · exact absurd hbody hne
              · exact Nat.mod_eq_of_lt hfits
            · rfl
          rw [hn] at hr
          rw [htake, drain, hr]
          simp only [if_neg (show w.bytes.length ≠ 0 by omega), List.drop_left, List.take_left,
            hdrain, Option.bind_eq_bind, Option.bind_some]
          rfl
        · rw [htake, hsplit, stream_cons, List.append_assoc]

/-- **A reader whose calls are all answered gets every response once.**  By induction on the
arrivals; between two of them no whole response is left. -/
theorem reader_spec (pieces : List Bytes) {ws : List WireReply} {acc : Bytes}
    (hsettled : Settled ws acc) (hall : acc ++ pieces.flatten = stream ws)
    (hcut : CutWell ws acc.length pieces) :
    reader acc pieces = some (ws.map WireReply.bytes, []) := by
  induction pieces generalizing ws acc with
  | nil =>
    rw [List.flatten_nil, List.append_nil] at hall
    cases ws with
    | nil =>
      have hnil : acc = [] := hsettled
      rw [hnil]
      rfl
    | cons w ws =>
      -- nothing more arrives, so nothing can be missing
      have hshort : acc.length < w.bytes.length := hsettled
      rw [hall, stream_cons, List.length_append] at hshort
      omega
  | cons piece pieces ih =>
    rw [List.flatten_cons, ← List.append_assoc] at hall
    have hlen := congrArg List.length hall
    rw [List.length_append] at hlen
    have htake : (stream ws).take (acc ++ piece).length = acc ++ piece := by
      rw [← hall, List.take_left]
    have hfirst : Cut ws (acc ++ piece).length := by
      rw [List.length_append]
      exact hcut.1
    -- what has arrived is a front of the stream
    rcases drain_spec ws (by omega) hfirst (Nat.lt_succ_self _) with
      ⟨done, left, tail, rfl, hdrain, hsplit, hsettled'⟩
    rw [htake] at hdrain hsplit
    have hrest : tail ++ pieces.flatten = stream left := by
      rw [hsplit, stream_append, List.append_assoc] at hall
      exact List.append_cancel_left hall
    have hcut' : CutWell left tail.length pieces := by
      have hnext := hcut.2
      rw [← List.length_append, hsplit, List.length_append] at hnext
      exact hnext.behind
    simp only [reader, hdrain, ih hsettled' hrest hcut', Option.bind_eq_bind, Option.bind_some]
    rw [List.map_append]
    rfl

/-- **When `tp_reply` recognises a part of a response.**  On the first `k` bytes of a response it
returns 0 exactly if there are none, or the length is there and the response is shorter than `2^32`
bytes; on a whole one, with anything behind it, it returns its length exactly if it has a body or is
shorter than that.  A reader all of whose calls are of these kinds gets every response once, however
the stream is cut.  The two exceptions have one cause each: `mp_check` is asked about a length that
is not there as a whole, and the sum of length and position is computed in 32 bits. -/
theorem tpReply_partial :
    (∀ (w : WireReply) (k : Nat), k < w.bytes.length →
      (tpReplyRc (w.bytes.take k) = some 0 ↔ k = 0 ∨ 5 ≤ k ∧ w.bytes.length < 2 ^ 32)) ∧
    (∀ (w : WireReply) (next : Bytes), tpReplyRc (w.bytes ++ next) = some (w.bytes.length : Int) ↔
      w.body ≠ none ∨ w.bytes.length < 2 ^ 32) ∧
    ∀ (ws : List WireReply) (pieces : List Bytes), pieces.flatten = stream ws →
      CutWell ws 0 pieces → reader [] pieces = some (ws.map WireReply.bytes, []) := by
  refine ⟨fun w k hk => tpReplyRc_cut_iff w hk, tpReplyRc_whole_iff, ?_⟩
  intro ws pieces hall hcut
  have hsettled : Settled ws [] := by
    cases ws with
    | nil => rfl
    | cons w ws =>
      show 0 < w.bytes.length
      rw [reply_length]
      omega
  exact reader_spec pieces hsettled hall hcut

end Runs

/-- The reply is of the format, ... -/
theorem dataReply_wf : WellFormed dataHdr (some dataBody) := by
  refine ⟨?_, ?_⟩
  · intro w hw
    rcases List.mem_cons.mp hw with rfl | hw
    · exact ⟨.inl rfl, 0, rfl⟩
    rcases List.mem_cons.mp hw with rfl | hw
    · exact ⟨.inr (.inr rfl), 80, rfl⟩
    · rw [List.mem_singleton.mp hw]
      exact ⟨.inr (.inl rfl), 7, rfl⟩
  · intro m hm w hw
    cases hm
    rw [List.mem_singleton.mp hw]
    exact ⟨by decide, by decide, fun _ => rfl, by decide, by decide⟩

/-- The reply with data, 16 bytes. -/
def dataReply : WireReply := ⟨dataHdr, some dataBody, dataReply_wf, by decide⟩

/-- ... and this is what comes of it, cut at each of its bytes and whole. -/
theorem tpReply_partial_data :
    let _ := Msgpuck.reference
    tpReplyRc (dataReply.bytes.take 7) = some 0 ∧
      tpReplyRc (dataReply.bytes ++ [0xce]) = some 16 ∧
      reader [] [dataReply.bytes.take 5, dataReply.bytes.drop 5 ++ dataReply.bytes.take 9,
        dataReply.bytes.drop 9] = some ([dataReply.bytes, dataReply.bytes], []) := by
  intro _
  rcases tpReply_partial with ⟨hpart, hwhole, hread⟩
  refine ⟨(hpart dataReply 7 (by decide)).mpr (by decide),
    (hwhole dataReply [0xce]).mpr (.inl (by decide)), ?_⟩
  refine hread [dataReply, dataReply] _ (by decide) ⟨?_, ?_, ?_, trivial⟩
  · exact .inr (by decide)
  · exact ⟨.inl (by decide), .inr (by decide)⟩
  · exact ⟨.inl (by decide), .inl (by decide), trivial⟩

/-- The first byte alone is an error, and a reader that gets it alone gets nothing. -/
theorem tpReply_first_byte :
    let _ := Msgpuck.reference
    1 < dataReply.bytes.length ∧ dataReply.bytes.take 1 = [0xce] ∧
      tpReplyRc (dataReply.bytes.take 1) = some (-1) ∧
      reader [] [dataReply.bytes.take 1, dataReply.bytes.drop 1] = none := by
  intro _
  have hfail : tpReply (dataReply.bytes.take 1) = .fail :=
    tpReply_short dataReply (by decide) (by decide)
  refine ⟨by decide, by decide, ?_, ?_⟩
  · rw [tpReplyRc, hfail]
  · have hdrain : drain (([] ++ dataReply.bytes.take 1).length + 1) ([] ++ dataReply.bytes.take 1) =
        none := by
      rw [List.nil_append, drain, hfail]
    simp only [reader, hdrain, Option.bind_eq_bind, Option.bind_none]

end TarantoolC.Tp
