/-
# TarantoolC.Tp.Frames — what stands in the window: a sequence of FRAMES.

The writer has no notion of a request beyond two pointers.  The abstract writer here has: a list of
frames, the newest first, each with its type, its sync and the bytes of its body.  A call starts a
frame, extends the body of the newest one, or sets its sync.  `Represents` says that a window holds
such a list, and every call keeps it, through any number of moves of the window; a call that returns
`NULL` leaves the window as it was.

The length field has 32 bits, so a frame says its length as long as that is below `2^32`.

## How a call is followed

* `Effect` — what a call means for the list: to start a frame, to extend the newest, to set its
  sync.
* `tpEnsure_spec` — there is room afterwards, in the same window or in another with the same bytes;
  or `NULL`, and nothing has changed.
* `tpRequest_spec`, `tpAppend_spec`, `tpReqid_spec` — one for each course of the writer.  The sum a
  function asks room for is compared with the bytes it encodes here, once for each function, in
  `TpCall.run_spec`.
* `Run.represents` — any calls, with any callbacks that keep their promise (`Trusted`).

`Allowed` is the order of calls that `tp.h` asks for: something can only be appended once a request
has been started.  The source has an assert for this in `tp_add` and `tp_reqid`, and `run_framed` is
about the runs in which it holds.
-/
import TarantoolC.Tp.Writer

namespace TarantoolC.Tp

open MsgPack Msgpuck Mpsize

/-! ## §1 — frames.

The abstract writer.  It has no window, no pointers, and no room that could be short; `Effect.need`
says how much a call would take. -/

/-- A request. -/
structure Frame where
  code : RequestType
  sync : UInt32
  body : Bytes
  deriving Repr, DecidableEq

/-- The header up to the sync: a map of two, the key and the code, the key. -/
def head (code : RequestType) : Bytes := [0x82, 0x00, UInt8.ofNat code.num.toNat, 0x01]

/-- A number in five bytes, whatever it is. -/
def five (n : Nat) : Bytes := 0xce :: be 4 n

def Frame.payload (f : Frame) : Bytes := head f.code ++ (five f.sync.toNat ++ f.body)

def Frame.bytes (f : Frame) : Bytes := five f.payload.length ++ f.payload

/-- The bytes of the frames, in the order in which they were started. -/
def wire (frames : List Frame) : Bytes := (frames.reverse.map Frame.bytes).flatten

/-- Lengths: of a number in five bytes, ... -/
@[simp] theorem five_length (n : Nat) : (five n).length = 5 := by simp [five]

/-- ... of a header up to the sync, ... -/
@[simp] theorem head_length (code : RequestType) : (head code).length = 4 := rfl

/-- ... of no frames, ... -/
@[simp] theorem wire_nil : wire [] = [] := rfl

/-- ... of one more, ... -/
@[simp] theorem wire_cons (f : Frame) (done : List Frame) : wire (f :: done) = wire done ++ f.bytes := by
  simp [wire]

/-- ... of what a frame announces ... -/
theorem Frame.payload_length (f : Frame) : f.payload.length = 9 + f.body.length := by
  simp only [Frame.payload, List.length_append, head_length, five_length]
  omega

/-- ... and of the whole of it. -/
theorem Frame.bytes_length (f : Frame) : f.bytes.length = 14 + f.body.length := by
  simp only [Frame.bytes, List.length_append, five_length, f.payload_length]
  omega

/-- The frames around the sync of the newest. -/
theorem wire_sync (f : Frame) (done : List Frame) :
    wire (f :: done) = (wire done ++ (five f.payload.length ++ head f.code)) ++
      (five f.sync.toNat ++ f.body) := by
  simp only [wire_cons, Frame.bytes, Frame.payload, List.append_assoc]

/-- Where the sync of the newest frame stands. -/
theorem before_sync_length (f : Frame) (done : List Frame) :
    (wire done ++ (five f.payload.length ++ head f.code)).length = (wire done).length + 9 := by
  simp only [List.length_append, five_length, head_length]

/-- What a call does to the frames when it succeeds. -/
inductive Effect where
  | start (code : RequestType) (body : Bytes)
  | append (bs : Bytes)
  | sync (n : UInt32)
  deriving Repr, DecidableEq

def Effect.apply : Effect → List Frame → List Frame
  | .start code body, frames => ⟨code, 0, body⟩ :: frames
  | .append bs, f :: done => { f with body := f.body ++ bs } :: done
  | .sync n, f :: done => { f with sync := n } :: done
  | _, [] => []

/-- How many bytes it adds. -/
def Effect.need : Effect → Nat
  | .start _ body => 14 + body.length
  | .append bs => bs.length
  | .sync _ => 0

/-- There is a request to append to. -/
def Effect.Legal : Effect → List Frame → Prop
  | .start _ _, _ => True
  | _, frames => frames ≠ []

/-- What an effect adds is what it needs. -/
theorem Effect.wire_length {e : Effect} {frames : List Frame} (h : e.Legal frames) :
    (wire (e.apply frames)).length = (wire frames).length + e.need := by
  cases e with
  | start code body => simp [Effect.apply, Effect.need, Frame.bytes_length]
  | append bs =>
    cases frames with
    | nil => exact absurd rfl h
    | cons f done => simp [Effect.apply, Effect.need, Frame.bytes_length, Nat.add_assoc]
  | sync n =>
    cases frames with
    | nil => exact absurd rfl h
    | cons f done => simp [Effect.apply, Effect.need, Frame.bytes_length]

/-! ## §2 — windows that hold frames.

The relation of the two writers.  The memory behind the position may hold anything, and `size` and
`sync` are `NULL` as long as nothing was started. -/

/-- Where the newest frame starts. -/
def lastStart : List Frame → Option Nat
  | [] => none
  | _ :: done => some (wire done).length

/-- The window is in order, holds the frames, and its pointers lead into the newest. -/
structure Represents (t : Tp) (frames : List Frame) : Prop where
  s_le : t.s ≤ t.p
  p_le : t.p ≤ t.e
  mem_length : t.mem.length = t.e - t.s
  bytes_eq : t.bytes = wire frames
  size_eq : t.size = (lastStart frames).map fun off => t.s + off
  sync_eq : t.sync = (lastStart frames).map fun off => t.s + (off + 9)

/-- The two pointers lead to the length of the newest frame ... -/
theorem Represents.size_cons {t : Tp} {f : Frame} {done : List Frame} (h : Represents t (f :: done)) :
    t.size = some (t.s + (wire done).length) := h.size_eq

/-- ... and to its sync. -/
theorem Represents.sync_cons {t : Tp} {f : Frame} {done : List Frame} (h : Represents t (f :: done)) :
    t.sync = some (t.s + ((wire done).length + 9)) := h.sync_eq

/-- A new window holds no frames. -/
theorem tpInit_represents (s : Nat) (buf : Bytes) : Represents (tpInit s buf) [] := by
  refine ⟨Nat.le_refl _, Nat.le_add_right _ _, ?_, ?_, rfl, rfl⟩
  · show buf.length = s + buf.length - s
    omega
  · show buf.take (s - s) = []
    rw [Nat.sub_self, List.take_zero]

/-- What is used lies in the window, ... -/
theorem Represents.used_le {t : Tp} {frames : List Frame} (h : Represents t frames) :
    tpUsed t ≤ t.mem.length := by
  have hp := h.p_le
  have hm := h.mem_length
  show t.p - t.s ≤ t.mem.length
  omega

/-- ... byte for byte, ... -/
theorem bytes_length {t : Tp} (h : tpUsed t ≤ t.mem.length) : t.bytes.length = tpUsed t :=
  List.length_take_of_le h

/-- ... and is the wire of the frames, ... -/
theorem Represents.used {t : Tp} {frames : List Frame} (h : Represents t frames) :
    tpUsed t = (wire frames).length := by
  rw [← bytes_length h.used_le, h.bytes_eq]

/-- ... behind which the position is ... -/
theorem Represents.p_eq {t : Tp} {frames : List Frame} (h : Represents t frames) :
    t.p = t.s + (wire frames).length := by
  have hs := h.s_le
  have hu : t.p - t.s = (wire frames).length := h.used
  omega

/-- ... with the rest of the window. -/
theorem Represents.unused {t : Tp} {frames : List Frame} (h : Represents t frames) :
    tpUnused t = t.mem.length - (wire frames).length := by
  have hs := h.s_le
  have hp := h.p_le
  have hm := h.mem_length
  have hpe := h.p_eq
  show t.e - t.p = _
  omega

/-! ## §3 — stores.

Stores at addresses inside the window are `overwrite` of its bytes, at the place less the start of
the window.  This is the only place where an address is turned into an offset. -/

/-- A write in the middle, of as many bytes as stand there. -/
theorem overwrite_middle (front old new back : Bytes) (h : new.length = old.length) :
    overwrite (front ++ (old ++ back)) front.length new = front ++ (new ++ back) := by
  have hdrop : (front ++ (old ++ back)).drop (front.length + new.length) = back := by
    rw [List.drop_append, List.drop_eq_nil_of_le (by omega), Nat.add_sub_cancel_left, h,
      List.drop_left, List.nil_append]
  rw [overwrite, hdrop, List.take_left]

section Stores

variable {s p e off : Nat} {size sync : Option Nat} {mem : Bytes}

/-- A store inside the window overwrites. -/
theorem store_eq {bs : Bytes} (h : off + bs.length ≤ mem.length) :
    store ⟨s, p, e, size, sync, mem⟩ (s + off) bs =
      some ⟨s, p, e, size, sync, overwrite mem off bs⟩ := by
  have hoff : s + off - s = off := Nat.add_sub_cancel_left _ _
  simp only [store, hoff]
  rw [if_pos ⟨Nat.le_add_right _ _, h⟩]

/-- The stores one after the other are one store of the concatenation. -/
theorem putAll_eq {l : List Bytes} (h : off + l.flatten.length ≤ mem.length) :
    putAll ⟨s, p, e, size, sync, mem⟩ (s + off) l =
      some (⟨s, p, e, size, sync, overwrite mem off l.flatten⟩, s + (off + l.flatten.length)) := by
  induction l generalizing mem off with
  | nil => simp [putAll, overwrite]
  | cons bs l ih =>
    simp only [List.flatten_cons, List.length_append] at h
    have hbs : off + bs.length ≤ mem.length := by omega
    have hlen := overwrite_length hbs
    have hrest : off + bs.length + l.flatten.length ≤ (overwrite mem off bs).length := by omega
    simp only [putAll, store_eq hbs, Option.bind_eq_bind, Option.bind_some, Nat.add_assoc s]
    rw [ih hrest, overwrite_overwrite h, List.flatten_cons, List.length_append, Nat.add_assoc off]

/-- The five bytes of a number, stored in two steps: the marker ... -/
theorem store_mark (h : off + 5 ≤ mem.length) :
    store ⟨s, p, e, size, sync, mem⟩ (s + off) [0xce] =
      some ⟨s, p, e, size, sync, overwrite mem off [0xce]⟩ :=
  store_eq (by rw [List.length_singleton]; omega)

/-- ... and the number. -/
theorem store_number (h : off + 5 ≤ mem.length) (n : Nat) :
    store ⟨s, p, e, size, sync, overwrite mem off [0xce]⟩ (s + off + 1) (be 4 n) =
      some ⟨s, p, e, size, sync, overwrite mem off (five n)⟩ := by
  have hone : off + ([0xce] : Bytes).length ≤ mem.length := by rw [List.length_singleton]; omega
  have htwo : off + (([0xce] : Bytes).length + (be 4 n).length) ≤ mem.length := by
    rw [List.length_singleton, be_length]; omega
  have hsnd : off + 1 + (be 4 n).length ≤ (overwrite mem off [0xce]).length := by
    rw [overwrite_length hone, be_length]; omega
  rw [Nat.add_assoc, store_eq hsnd]
  exact congrArg (fun m => some (Tp.mk s p e size sync m)) (overwrite_overwrite htwo)

end Stores

/-! ## §4 — making room.

Either the window has room, or the callback gives a larger one with the bytes in use copied, or
there is none and `NULL` goes through to the caller. -/

/-- The callbacks a caller may give: none, or one that keeps its promise. -/
def Trusted (R : Option Reserve) : Prop := ∀ reserve, R = some reserve → reserve.Sound

/-- The window in another block. -/
theorem Represents.rebase {t : Tp} {frames : List Frame} (h : Represents t frames) (np : Nat)
    {block : Bytes} (hlen : tpUsed t ≤ block.length) (hkeep : block.take (tpUsed t) = t.bytes) :
    Represents
      { s := np
        p := np + (t.p - t.s)
        e := np + block.length
        size := t.size.map fun a => np + (a - t.s)
        sync := t.sync.map fun a => np + (a - t.s)
        mem := block } frames := by
  refine ⟨Nat.le_add_right _ _, ?_, ?_, ?_, ?_, ?_⟩
  · show np + (t.p - t.s) ≤ np + block.length
    exact Nat.add_le_add_left hlen _
  · show block.length = np + block.length - np
    omega
  · show block.take (np + (t.p - t.s) - np) = wire frames
    rw [Nat.add_sub_cancel_left, ← h.bytes_eq]
    exact hkeep
  · show t.size.map _ = _
    rw [h.size_eq, Option.map_map]
    simp only [Function.comp_def, Nat.add_sub_cancel_left]
  · show t.sync.map _ = _
    rw [h.sync_eq, Option.map_map]
    simp only [Function.comp_def, Nat.add_sub_cancel_left]

/-- **`tp_ensure` makes room or changes nothing.**  The window may have moved; the frames and the
pointers into the newest have moved with it. -/
theorem tpEnsure_spec {R : Option Reserve} (hR : Trusted R) {t : Tp} {frames : List Frame}
    (h : Represents t frames) (n : Nat) :
    tpEnsure R t n = (-1, t) ∧ tpUnused t < n ∨
      ∃ rc t', tpEnsure R t n = (rc, t') ∧ rc ≠ -1 ∧ Represents t' frames ∧
        (wire frames).length + n ≤ t'.mem.length ∧ (n ≤ tpUnused t → t' = t) := by
  by_cases hn : tpUnused t ≥ n
  · right
    refine ⟨0, t, ?_, by decide, h, ?_, fun _ => rfl⟩
    · simp only [tpEnsure, if_pos hn]
    · have hs := h.s_le
      have hp := h.p_le
      have hm := h.mem_length
      have hpe := h.p_eq
      have hun : t.e - t.p ≥ n := hn
      omega
  · have hlt : tpUnused t < n := by omega
    cases R with
    | none =>
      left
      exact ⟨by simp only [tpEnsure, if_neg hn], hlt⟩
    | some reserve =>
      cases hblock : reserve t n with
      | none =>
        left
        exact ⟨by simp only [tpEnsure, if_neg hn, hblock], hlt⟩
      | some new =>
        right
        -- the callback has found room, and the window moves there
        obtain ⟨np, block⟩ := new
        obtain ⟨hroom, hkeep⟩ := hR reserve rfl t n np block h.used_le hblock
        refine ⟨block.length, _, ?_, ?_, h.rebase np (by omega) hkeep, ?_, fun hle => by omega⟩
        · simp only [tpEnsure, if_neg hn, hblock]
        · omega
        · show (wire frames).length + n ≤ block.length
          rw [← h.used]
          exact hroom

/-! ## §5 — what the functions write.

The common course of a request function: room, `tp_add` of the whole size, the encodings one behind
the other.  The stores land in the part that was just added. -/

/-- The length field of the frame that starts at `off`, when everything up to `p` belongs to it. -/
theorem tpAdd_eq {s e u off n : Nat} {sync : Option Nat} {mem : Bytes} (hoff : off + 5 ≤ mem.length) :
    tpAdd ⟨s, s + u, e, some (s + off), sync, mem⟩ n =
      some (s + u, ⟨s, s + (u + n), e, some (s + off), sync,
        overwrite mem off (five (u + n - (off + 5)))⟩) := by
  have hlen : s + (u + n) - (s + off) - 5 = u + n - (off + 5) := by omega
  simp only [tpAdd, Option.bind_eq_bind, Option.bind_some, Nat.add_assoc s u n]
  rw [store_mark hoff]
  simp only [Option.bind_some, hlen]
  rw [store_number hoff]
  rfl

/-- The header, then the body, then the length in front of both: a frame. -/
theorem overwrite_frame {mem : Bytes} {u : Nat} (f : Frame) (hroom : u + f.bytes.length ≤ mem.length) :
    overwrite (overwrite (overwrite mem (u + 5) (head f.code ++ five f.sync.toNat)) (u + 14) f.body) u
      (five f.payload.length) = overwrite mem u f.bytes := by
  have hplen := f.payload_length
  rw [f.bytes_length] at hroom
  have hhead : (head f.code ++ five f.sync.toNat).length = 9 := by
    rw [List.length_append, head_length, five_length]
  have hpay : overwrite (overwrite mem (u + 5) (head f.code ++ five f.sync.toNat)) (u + 5 + 9) f.body =
      overwrite mem (u + 5) f.payload := by
    rw [← hhead, overwrite_overwrite (by rw [hhead]; omega), List.append_assoc]
    rfl
  have hall := @overwrite_before mem (five f.payload.length) f.payload u
    (by rw [five_length, hplen]; omega)
  rw [five_length, ← hpay] at hall
  exact hall

section Functions

variable [Mpsize]

/-- The header is what the calls write one after the other, ... -/
theorem headFields_flatten (code : RequestType) : (headFields code).flatten = head code := by
  simp only [headFields, mpEncodeMap_eq, mpEncodeUint_eq]
  cases code <;> decide

/-- ... and is measured rightly. -/
theorem tpiSizeofHeader_eq (code : RequestType) : tpiSizeofHeader code = 14 := by
  simp only [tpiSizeofHeader, mpSizeofMap_eq, mpSizeofUint_eq]
  cases code <;> decide

/-- The header, with the sync still 0. -/
theorem tpiEncodeHeader_eq {s e off : Nat} {size sync : Option Nat} {mem : Bytes}
    (code : RequestType) (hroom : off + 14 ≤ mem.length) :
    tpiEncodeHeader ⟨s, s + off, e, size, sync, mem⟩ code =
      some (⟨s, s + off, e, some (s + off), some (s + (off + 9)),
        overwrite mem (off + 5) (head code ++ five 0)⟩, s + (off + 14)) := by
  have hhead : off + 5 + (headFields code).flatten.length ≤ mem.length := by
    rw [headFields_flatten, head_length]; omega
  have hfive : off + 9 + 5 ≤ (overwrite mem (off + 5) (head code)).length := by
    rw [← headFields_flatten, overwrite_length hhead]; omega
  have hmerge : overwrite (overwrite mem (off + 5) (head code)) (off + 9) (five 0) =
      overwrite mem (off + 5) (head code ++ five 0) :=
    overwrite_overwrite (by rw [head_length, five_length]; omega)
  have hzero : ([0, 0, 0, 0] : Bytes) = be 4 0 := by decide
  simp only [tpiEncodeHeader, Nat.add_assoc s off 5]
  rw [putAll_eq hhead]
  simp only [headFields_flatten, head_length, Nat.add_assoc off 5 4, Nat.reduceAdd,
    Option.bind_eq_bind, Option.bind_some]
  rw [store_mark hfive]
  simp only [Option.bind_some]
  rw [hzero, store_number hfive, hmerge]
  rfl

/-- **A request function starts a frame**, or returns `NULL` and changes nothing.  The size that was
asked for is the size of the frame, byte for byte. -/
theorem tpRequest_spec {R : Option Reserve} (hR : Trusted R) {t : Tp} {frames : List Frame}
    (h : Represents t frames) (code : RequestType) {sz : Nat} {fields : List Bytes}
    (hsz : sz = fields.flatten.length) :
    tpRequest R t code sz fields = some (.null, t) ∧ tpUnused t < 14 + sz ∨
      ∃ a t', tpRequest R t code sz fields = some (.ptr a, t') ∧
        Represents t' (⟨code, 0, fields.flatten⟩ :: frames) ∧
        (14 + sz ≤ tpUnused t → t'.mem.length = t.mem.length) := by
  have hasz : sz + tpiSizeofHeader code = 14 + sz := by rw [tpiSizeofHeader_eq, Nat.add_comm]
  rcases tpEnsure_spec hR h (14 + sz) with ⟨hens, hlt⟩ | ⟨rc, t₁, hens, hrc, hrep, hroom, hsame⟩
  · left
    refine ⟨?_, hlt⟩
    simp only [tpRequest, hasz, hens, if_true]
  · right
    have hp := hrep.p_eq
    have hpe := hrep.p_le
    have hm := hrep.mem_length
    have hbytes := hrep.bytes_eq
    obtain ⟨s, p, e, size, sync, mem⟩ := t₁
    simp only at hp hpe hm hroom
    subst hp
    -- the new frame starts behind the old ones, at `u`
    set u := (wire frames).length with hu
    set f : Frame := ⟨code, 0, fields.flatten⟩ with hf
    have hflen : f.bytes.length = 14 + sz := by rw [f.bytes_length, hsz]
    have hplen : u + (14 + sz) - (u + 5) = f.payload.length := by
      have hbody := f.payload_length
      have hfields : f.body.length = sz := hsz.symm
      omega
    have hhead : (overwrite mem (u + 5) (head code ++ five 0)).length = mem.length :=
      overwrite_length (by rw [List.length_append, head_length, five_length]; omega)
    have hbody : u + 14 + fields.flatten.length ≤
        (overwrite mem (u + 5) (head code ++ five 0)).length := by omega
    have hlen : (overwrite mem u f.bytes).length = mem.length := overwrite_length (by omega)
    refine ⟨s + u, ⟨s, s + (u + (14 + sz)), e, some (s + u), some (s + (u + 9)),
      overwrite mem u f.bytes⟩, ?_, ⟨Nat.le_add_right _ _, ?_, ?_, ?_, rfl, rfl⟩, ?_⟩
    · simp only [tpRequest, hasz, hens, if_neg hrc, Option.bind_eq_bind]
      -- header, body, then the length in front of both
      rw [tpiEncodeHeader_eq code (by omega)]
      simp only [Option.bind_some]
      rw [putAll_eq hbody]
      simp only [Option.bind_some]
      rw [tpAdd_eq (by rw [overwrite_length hbody]; omega), hplen]
      exact congrArg (fun m => some (Ret.ptr (s + u), Tp.mk s _ e _ _ m))
        (overwrite_frame f (by omega))
    · show s + (u + (14 + sz)) ≤ e
      omega
    · show (overwrite mem u f.bytes).length = e - s
      omega
    · show (overwrite mem u f.bytes).take (s + (u + (14 + sz)) - s) = wire (f :: frames)
      have hold : mem.take (s + u - s) = wire frames := hbytes
      rw [Nat.add_sub_cancel_left] at hold ⊢
      rw [← hflen, take_overwrite (by omega), hold, wire_cons]
    · intro hle
      rw [← hsame hle]
      exact hlen

end Functions

/-- The bytes of the newest frame behind a longer body: the body, then the length again. -/
theorem overwrite_longer (f : Frame) (done : List Frame) (bs : Bytes) :
    overwrite (wire (f :: done) ++ bs) (wire done).length
        (five ({ f with body := f.body ++ bs } : Frame).payload.length) =
      wire ({ f with body := f.body ++ bs } :: done) := by
  have hpay : ({ f with body := f.body ++ bs } : Frame).payload = f.payload ++ bs := by
    simp only [Frame.payload, List.append_assoc]
  have hsplit : wire (f :: done) ++ bs =
      wire done ++ (five f.payload.length ++ (f.payload ++ bs)) := by
    simp only [wire_cons, Frame.bytes, List.append_assoc]
  rw [hsplit, overwrite_middle _ _ _ _ (by rw [five_length, five_length]), wire_cons, Frame.bytes,
    hpay]

/-- **An appending function extends the newest frame**, or returns `NULL` and changes nothing. -/
theorem tpAppend_spec {R : Option Reserve} (hR : Trusted R) {t : Tp} {f : Frame} {done : List Frame}
    (h : Represents t (f :: done)) {sz : Nat} {fields : List Bytes}
    (hsz : sz = fields.flatten.length) :
    tpAppend R t sz fields = some (.null, t) ∧ tpUnused t < sz ∨
      ∃ a t', tpAppend R t sz fields = some (.ptr a, t') ∧
        Represents t' ({ f with body := f.body ++ fields.flatten } :: done) ∧
        (sz ≤ tpUnused t → t'.mem.length = t.mem.length) := by
  rcases tpEnsure_spec hR h sz with ⟨hens, hlt⟩ | ⟨rc, t₁, hens, hrc, hrep, hroom, hsame⟩
  · left
    refine ⟨?_, hlt⟩
    simp only [tpAppend, hens, if_true]
  · right
    have hp := hrep.p_eq
    have hpe := hrep.p_le
    have hm := hrep.mem_length
    have hbytes := hrep.bytes_eq
    have hsize := hrep.size_cons
    have hsync := hrep.sync_cons
    obtain ⟨s, p, e, size, sync, mem⟩ := t₁
    simp only at hp hpe hm hroom hsize hsync
    subst hp hsize hsync
    -- the frame starts at `off` and ends at `u`
    set u := (wire (f :: done)).length with hu
    set off := (wire done).length with hoffdef
    set f' : Frame := { f with body := f.body ++ fields.flatten } with hf
    have huoff : u = off + (14 + f.body.length) := by
      rw [hu, wire_cons, List.length_append, f.bytes_length]
    have hplen : u + sz - (off + 5) = f'.payload.length := by
      have hpay := f'.payload_length
      have hbody : f'.body.length = f.body.length + sz := by rw [hf, hsz, List.length_append]
      omega
    have hbody : u + fields.flatten.length ≤ mem.length := by omega
    have hlen₁ := overwrite_length hbody
    have hfive : off + (five f'.payload.length).length ≤ u + sz := by rw [five_length]; omega
    have hlen₂ : (overwrite (overwrite mem u fields.flatten) off (five f'.payload.length)).length =
        mem.length := by
      rw [overwrite_length (by omega), hlen₁]
    refine ⟨s + u, ⟨s, s + (u + sz), e, some (s + off), some (s + (off + 9)),
      overwrite (overwrite mem u fields.flatten) off (five f'.payload.length)⟩, ?_,
      ⟨Nat.le_add_right _ _, ?_, ?_, ?_, rfl, rfl⟩, ?_⟩
    · simp only [tpAppend, hens, if_neg hrc, Option.bind_eq_bind]
      rw [putAll_eq hbody]
      simp only [Option.bind_some]
      rw [tpAdd_eq (by omega), hplen]
      rfl
    · show s + (u + sz) ≤ e
      omega
    · show (overwrite (overwrite mem u fields.flatten) off (five f'.payload.length)).length = e - s
      omega
    · show (overwrite _ off (five f'.payload.length)).take (s + (u + sz) - s) = wire (f' :: done)
      have hold : mem.take (s + u - s) = wire (f :: done) := hbytes
      rw [Nat.add_sub_cancel_left] at hold ⊢
      rw [take_overwrite_inside hfive (by omega), hsz, take_overwrite hbody, hold]
      -- only the length of the frame has changed, and what is behind it
      exact overwrite_longer f done _
    · intro hle
      rw [← hsame hle]
      exact hlen₂

/-- **`tp_reqid` sets the sync of the newest frame.**  The sync has five bytes in every frame, so
any number of 32 bits has room. -/
theorem tpReqid_spec {t : Tp} {f : Frame} {done : List Frame} (h : Represents t (f :: done))
    (reqid : UInt32) :
    ∃ t', tpReqid t reqid = some (.void, t') ∧ Represents t' ({ f with sync := reqid } :: done) ∧
      t'.mem.length = t.mem.length := by
  have hp := h.p_eq
  have hpe := h.p_le
  have hm := h.mem_length
  have hbytes := h.bytes_eq
  have hsize := h.size_cons
  have hsync := h.sync_cons
  obtain ⟨s, p, e, size, sync, mem⟩ := t
  simp only at hp hpe hm hsize hsync
  subst hp hsize hsync
  set u := (wire (f :: done)).length with hu
  set off := (wire done).length with hoffdef
  set f' : Frame := { f with sync := reqid } with hf
  have huoff : u = off + (14 + f.body.length) := by
    rw [hu, wire_cons, List.length_append, f.bytes_length]
  have hfive : off + 9 + (five reqid.toNat).length ≤ u := by rw [five_length]; omega
  have hlen : (overwrite mem (off + 9) (five reqid.toNat)).length = mem.length :=
    overwrite_length (by omega)
  refine ⟨⟨s, s + u, e, some (s + off), some (s + (off + 9)),
    overwrite mem (off + 9) (five reqid.toNat)⟩, ?_, ⟨Nat.le_add_right _ _, hpe, ?_, ?_, rfl, rfl⟩,
    hlen⟩
  · simp only [tpReqid, Option.bind_eq_bind, Option.bind_some]
    rw [store_mark (by omega)]
    simp only [Option.bind_some]
    rw [store_number (by omega)]
    rfl
  · show (overwrite mem (off + 9) (five reqid.toNat)).length = e - s
    omega
  · show (overwrite mem (off + 9) (five reqid.toNat)).take (s + u - s) = wire (f' :: done)
    have hold : mem.take (s + u - s) = wire (f :: done) := hbytes
    -- the sync has five bytes before and after, so the length stays right
    have hplen : f'.payload.length = f.payload.length := by
      rw [f'.payload_length, f.payload_length]
    rw [Nat.add_sub_cancel_left] at hold ⊢
    rw [take_overwrite_inside hfive (by omega), hold, wire_sync, ← before_sync_length f done,
      overwrite_middle _ _ _ _ (by rw [five_length, five_length]), wire_sync, hplen]

/-! ## §6 — the calls of a user.

Every function with its arguments, and the effect it is for.  The comparison of measured and written
sizes is by cases on the call and arithmetic in each. -/

/-- A call, with its arguments. -/
inductive TpCall where
  | ping
  | select (space index offset iterator limit : UInt32)
  | insert (space : UInt32)
  | replace (space : UInt32)
  | update (space : UInt32)
  | call (function : TpStr)
  | eval (expr : TpStr)
  | updatebegin (opCount : UInt32)
  | op (op : UInt8) (fieldNo : UInt32)
  | key (partCount : UInt32)
  | tuple (fieldCount : UInt32)
  | encodeNil
  | encodeUint (num : UInt64)
  | encodeInt (num : Int64) (neg : num.toInt < 0)
  | encodeStr (str : TpStr)
  | encodeSz (str : TpStr)
  | encodeBin (str : TpStr)
  | encodeArray (size : UInt32)
  | encodeMap (size : UInt32)
  | encodeBool (val : Bool)
  | encodeFloat (bits : UInt32)
  | encodeDouble (bits : UInt64)
  | reqid (reqid : UInt32)

def TpCall.run [Mpsize] (R : Option Reserve) (t : Tp) : TpCall → Option (Ret × Tp)
  | .ping => tpPing R t
  | .select space index offset iterator limit => tpSelect R t space index offset iterator limit
  | .insert space => tpInsert R t space
  | .replace space => tpReplace R t space
  | .update space => tpUpdate R t space
  | .call function => tpCall R t function
  | .eval expr => tpEval R t expr
  | .updatebegin opCount => tpUpdatebegin R t opCount
  | .op c fieldNo => tpOp R t c fieldNo
  | .key partCount => tpKey R t partCount
  | .tuple fieldCount => tpTuple R t fieldCount
  | .encodeNil => tpEncodeNil R t
  | .encodeUint num => tpEncodeUint R t num
  | .encodeInt num _ => tpEncodeInt R t num
  | .encodeStr str => tpEncodeStr R t str
  | .encodeSz str => tpEncodeSz R t str
  | .encodeBin str => tpEncodeBin R t str
  | .encodeArray size => tpEncodeArray R t size
  | .encodeMap size => tpEncodeMap R t size
  | .encodeBool val => tpEncodeBool R t val
  | .encodeFloat bits => tpEncodeFloat R t bits
  | .encodeDouble bits => tpEncodeDouble R t bits
  | .reqid n => tpReqid t n

/-- A key of a body, and a number under it. -/
def BodyKey.bytes (k : BodyKey) : Bytes := uintForm.min k.num.toNat

def BodyKey.pair (k : BodyKey) (n : UInt32) : Bytes := k.bytes ++ uintForm.min n.toNat

def TpStr.str (s : TpStr) : Bytes := strForm.min s.bytes.length ++ s.bytes

/-- What each call is for, in the terms of the format. -/
def TpCall.effect : TpCall → Effect
  | .ping => .start .ping (mapForm.min 0)
  | .select space index offset iterator limit =>
    .start .select (mapForm.min 6 ++ (BodyKey.space.pair space ++ (BodyKey.index.pair index ++
      (BodyKey.offset.pair offset ++ (BodyKey.limit.pair limit ++
        (BodyKey.iterator.pair iterator ++ BodyKey.key.bytes))))))
  | .insert space => .start .insert (mapForm.min 2 ++ (BodyKey.space.pair space ++ BodyKey.tuple.bytes))
  | .replace space =>
    .start .replace (mapForm.min 2 ++ (BodyKey.space.pair space ++ BodyKey.tuple.bytes))
  | .update space => .start .update (mapForm.min 3 ++ (BodyKey.space.pair space ++ BodyKey.key.bytes))
  | .call function =>
    .start .call (mapForm.min 2 ++ (BodyKey.function.bytes ++ (function.str ++ BodyKey.tuple.bytes)))
  | .eval expr =>
    .start .eval (mapForm.min 2 ++ (BodyKey.expression.bytes ++ (expr.str ++ BodyKey.tuple.bytes)))
  | .updatebegin opCount => .append (BodyKey.tuple.bytes ++ arrayForm.min opCount.toNat)
  | .op c fieldNo => .append (arrayForm.min 3 ++ (strForm.min 1 ++ (c :: uintForm.min fieldNo.toNat)))
  | .key n | .tuple n | .encodeArray n => .append (arrayForm.min n.toNat)
  | .encodeNil => .append [0xc0]
  | .encodeUint num => .append (uintForm.min num.toNat)
  | .encodeInt num _ => .append (negBytes num.toInt)
  | .encodeStr str | .encodeSz str => .append str.str
  | .encodeBin str => .append (binForm.min str.bytes.length ++ str.bytes)
  | .encodeMap size => .append (mapForm.min size.toNat)
  | .encodeBool val => .append [if val then 0xc3 else 0xc2]
  | .encodeFloat bits => .append (0xca :: be 4 bits.toNat)
  | .encodeDouble bits => .append (0xcb :: be 8 bits.toNat)
  | .reqid n => .sync n

/-- Texts: a length is not cut off, ... -/
@[simp] theorem TpStr.len_toNat (s : TpStr) : s.len.toNat = s.bytes.length := by
  have h := s.short
  simp only [TpStr.len, UInt32.toNat_ofNat']
  omega

/-- ... being of 32 bits, ... -/
theorem TpStr.lt (s : TpStr) : s.bytes.length < 2 ^ 32 := by
  have h := s.short
  omega

section Calls

variable [Mpsize]

/-- ... and encoding one is writing its header and its bytes, ... -/
@[simp] theorem TpStr.mpEncodeStr_bytes (s : TpStr) : mpEncodeStr s.bytes = s.str :=
  mpEncodeStr_eq s.bytes s.lt

/-- ... as bytes, too, ... -/
@[simp] theorem TpStr.mpEncodeBin_bytes (s : TpStr) :
    mpEncodeBin s.bytes = binForm.min s.bytes.length ++ s.bytes :=
  mpEncodeBin_eq s.bytes s.lt

/-- ... and for the operator of an update. -/
@[simp] theorem mpEncodeStr_one (c : UInt8) : mpEncodeStr [c] = strForm.min 1 ++ [c] :=
  mpEncodeStr_eq [c] (by simp)

/-- Every call is a request function, an appending function or `tp_reqid`, and asks room for exactly
what it writes. -/
theorem TpCall.run_shape (c : TpCall) (R : Option Reserve) (t : Tp) :
    match c.effect with
    | .start code body => ∃ sz fields, sz = fields.flatten.length ∧ fields.flatten = body ∧
        c.run R t = tpRequest R t code sz fields
    | .append bs => ∃ sz fields, sz = fields.flatten.length ∧ fields.flatten = bs ∧
        c.run R t = tpAppend R t sz fields
    | .sync n => c.run R t = tpReqid t n := by
  cases c
  case reqid n => rfl
  case eval expr =>
    -- measured with one key and written with another: both take one byte
    have hkey : (uintForm.min BodyKey.function.num.toNat).length =
        (uintForm.min BodyKey.expression.num.toNat).length := by decide
    refine ⟨_, _, ?_, ?_, rfl⟩
    · simp [hkey, TpStr.str, Nat.add_assoc]
    · simp [BodyKey.bytes]
  case encodeInt num neg =>
    refine ⟨_, _, ?_, ?_, rfl⟩
    · simp [mpSizeofInt_eq num neg, mpEncodeInt_eq num neg]
    · simp [mpEncodeInt_eq num neg]
  all_goals
    refine ⟨_, _, ?_, ?_, rfl⟩
    · simp [TpStr.str, Nat.add_assoc, Nat.add_comm 1]
    · simp [BodyKey.pair, BodyKey.bytes]

/-- **One call**: it returns `NULL` and changes nothing, for want of room, or has its effect; where
the room is there, the window stays where it is. -/
theorem TpCall.run_spec (c : TpCall) {R : Option Reserve} (hR : Trusted R) {t : Tp}
    {frames : List Frame} (h : Represents t frames) (hlegal : c.effect.Legal frames) :
    c.run R t = some (.null, t) ∧ tpUnused t < c.effect.need ∨
      ∃ r t', c.run R t = some (r, t') ∧ r ≠ .null ∧ Represents t' (c.effect.apply frames) ∧
        (c.effect.need ≤ tpUnused t → t'.mem.length = t.mem.length) := by
  have hshape := c.run_shape R t
  cases heff : c.effect with
  | start code body =>
    rw [heff] at hshape
    obtain ⟨sz, fields, hsz, rfl, hrun⟩ := hshape
    rw [hrun]
    have hneed : (Effect.start code fields.flatten).need = 14 + sz := by rw [hsz]; rfl
    rw [hneed]
    rcases tpRequest_spec hR h code hsz with hnull | ⟨a, t', hok, hrep, hroom⟩
    · left
      exact hnull
    · right
      exact ⟨.ptr a, t', hok, by simp, hrep, hroom⟩
  | append bs =>
    rw [heff] at hshape hlegal
    obtain ⟨sz, fields, hsz, rfl, hrun⟩ := hshape
    -- only a call behind a request is legal
    cases frames with
    | nil => exact absurd rfl hlegal
    | cons f done =>
      rw [hrun]
      have hneed : (Effect.append fields.flatten).need = sz := by rw [hsz]; rfl
      rw [hneed]
      rcases tpAppend_spec hR h hsz with hnull | ⟨a, t', hok, hrep, hroom⟩
      · left
        exact hnull
      · right
        exact ⟨.ptr a, t', hok, by simp, hrep, hroom⟩
  | sync n =>
    rw [heff] at hshape hlegal
    cases frames with
    | nil => exact absurd rfl hlegal
    | cons f done =>
      -- the id goes where one was: there is always room
      obtain ⟨t', hok, hrep, hlen⟩ := tpReqid_spec h n
      right
      exact ⟨.void, t', hshape.trans hok, by simp, hrep, fun _ => hlen⟩

end Calls

/-! ## §7 — runs.

A trace is read backwards: the frames that a run has written are those of the calls that did not
return `NULL`, in order. -/

def TpCall.isRequest (c : TpCall) : Bool :=
  match c.effect with
  | .start _ _ => true
  | _ => false

/-- The calls so far with what they returned, the newest first. -/
abbrev Trace := List (TpCall × Ret)

/-- The frames those calls were for. -/
def written : Trace → List Frame
  | [] => []
  | (_, .null) :: trace => written trace
  | (c, _) :: trace => c.effect.apply (written trace)

/-- Something can be appended, or given an id, once a request function has not returned `NULL`. -/
def Allowed (trace : Trace) (c : TpCall) : Prop :=
  c.isRequest = true ∨ ∃ x ∈ trace, x.1.isRequest = true ∧ x.2 ≠ .null

/-- The runs over a buffer at the address `s`.  What the callback answers may be different at every
call. -/
inductive Run [Mpsize] (s : Nat) (buf : Bytes) : Trace → Tp → Prop
  | init : Run s buf [] (tpInit s buf)
  | call {trace t R c r t'} : Run s buf trace t → Trusted R → Allowed trace c →
      c.run R t = some (r, t') → Run s buf ((c, r) :: trace) t'

/-- No effect takes a frame away. -/
theorem Effect.apply_ne_nil {e : Effect} {frames : List Frame} (h : frames ≠ []) :
    e.apply frames ≠ [] := by
  cases frames with
  | nil => exact absurd rfl h
  | cons f done => cases e <;> simp [Effect.apply]

/-- The request functions are those that start frames. -/
theorem TpCall.isRequest_iff {c : TpCall} :
    c.isRequest = true ↔ ∃ code body, c.effect = .start code body := by
  unfold TpCall.isRequest
  cases c.effect <;> simp

/-- Behind one that has not returned `NULL` there is a frame, ... -/
theorem written_ne_nil {trace : Trace}
    (h : ∃ x ∈ trace, x.1.isRequest = true ∧ x.2 ≠ .null) : written trace ≠ [] := by
  induction trace with
  | nil =>
    obtain ⟨x, hx, -⟩ := h
    exact absurd hx (by simp)
  | cons y trace ih =>
    obtain ⟨c, r⟩ := y
    obtain ⟨x, hx, hreq, hret⟩ := h
    rcases List.mem_cons.mp hx with rfl | hin
    · obtain ⟨code, body, heff⟩ := TpCall.isRequest_iff.mp hreq
      cases r with
      | null => exact absurd rfl hret
      | ptr a => simp [written, heff, Effect.apply]
      | void => simp [written, heff, Effect.apply]
    · have hne := ih ⟨x, hin, hreq, hret⟩
      cases r with
      | null => exact hne
      | ptr a => exact Effect.apply_ne_nil hne
      | void => exact Effect.apply_ne_nil hne

/-- ... so a call that is allowed finds what it needs. -/
theorem Allowed.legal {trace : Trace} {c : TpCall} (h : Allowed trace c) :
    c.effect.Legal (written trace) := by
  rcases h with hreq | hbefore
  · obtain ⟨code, body, heff⟩ := TpCall.isRequest_iff.mp hreq
    rw [heff]
    trivial
  · have hne := written_ne_nil hbefore
    cases heff : c.effect with
    | start code body => trivial
    | append bs => exact hne
    | sync n => exact hne

section Runs

variable [Mpsize]

/-- **Every run keeps the window in order.** -/
theorem Run.represents {s : Nat} {buf : Bytes} {trace : Trace} {t : Tp} (h : Run s buf trace t) :
    Represents t (written trace) := by
  induction h with
  | init => exact tpInit_represents s buf
  | @call trace t R c r t' _ hR hallowed hrun ih =>
    rcases c.run_spec hR ih hallowed.legal with ⟨hnull, -⟩ | ⟨r₁, t₁, hok, hret, hrep, -⟩
    · obtain ⟨rfl, rfl⟩ := Prod.mk.inj (Option.some.inj (hrun.symm.trans hnull))
      exact ih
    · obtain ⟨rfl, rfl⟩ := Prod.mk.inj (Option.some.inj (hrun.symm.trans hok))
      cases r with
      | null => exact absurd rfl hret
      | ptr a => exact hrep
      | void => exact hrep

end Runs

/-! ## §8 — what is left alone.

A call changes what was written before in one place at most, the length of the newest frame or its
sync.  The bytes that a user has already sent are not touched. -/

/-- The bytes a call may change among those written before: the length of the newest frame, its
sync. -/
def Effect.Patches (t : Tp) : Effect → Nat → Prop
  | .start _ _, _ => False
  | .append _, i => ∃ size, t.size = some size ∧ size + 1 ≤ t.s + i ∧ t.s + i < size + 5
  | .sync _, i => ∃ sync, t.sync = some sync ∧ sync + 1 ≤ t.s + i ∧ t.s + i < sync + 5

/-- Four bytes are exchanged, and something is appended. -/
theorem getElem?_patch {front old new back tail : Bytes} (hlen : new.length = old.length) {i : Nat}
    (hi : i < (front ++ (old ++ back)).length)
    (hout : i < front.length ∨ front.length + old.length ≤ i) :
    (front ++ (new ++ (back ++ tail)))[i]? = (front ++ (old ++ back))[i]? := by
  rcases hout with hin | hbehind
  · rw [List.getElem?_append_left hin, List.getElem?_append_left hin]
  · simp only [List.length_append] at hi
    have hnew : i - front.length - new.length = i - front.length - old.length := by rw [hlen]
    rw [List.getElem?_append_right (by omega), List.getElem?_append_right (by omega), hnew,
      List.getElem?_append_left (by omega), List.getElem?_append_right (by omega),
      List.getElem?_append_right (by omega)]

/-- The frames before and after, byte by byte. -/
theorem Represents.kept {t : Tp} {frames : List Frame} (h : Represents t frames) {e : Effect}
    (hlegal : e.Legal frames) {i : Nat} (hi : i < (wire frames).length) (hout : ¬ e.Patches t i) :
    (wire (e.apply frames))[i]? = (wire frames)[i]? := by
  cases e with
  | start code body =>
    show (wire (_ :: frames))[i]? = _
    rw [wire_cons, List.getElem?_append_left hi]
  | append bs =>
    cases frames with
    | nil => exact absurd rfl hlegal
    | cons f done =>
      have hold : wire (f :: done) =
          (wire done ++ [0xce]) ++ (be 4 f.payload.length ++ f.payload) := by
        simp [Frame.bytes, five]
      have hnew : wire ((Effect.append bs).apply (f :: done)) = (wire done ++ [0xce]) ++
          (be 4 (f.payload ++ bs).length ++ (f.payload ++ bs)) := by
        simp [Effect.apply, Frame.bytes, Frame.payload, five]
      rw [hold] at hi
      rw [hnew, hold]
      refine getElem?_patch (by simp) hi ?_
      by_contra hcon
      push Not at hcon
      simp only [List.length_append, List.length_singleton, be_length] at hcon
      -- the four bytes of the length are patched
      exact hout ⟨_, h.size_cons, by omega, by omega⟩
  | sync n =>
    cases frames with
    | nil => exact absurd rfl hlegal
    | cons f done =>
      have hlen := f.payload_length
      have hold : wire (f :: done) = (wire done ++ (five f.payload.length ++ (head f.code ++ [0xce]))) ++
          (be 4 f.sync.toNat ++ f.body) := by
        simp [Frame.bytes, Frame.payload, five]
      have hnew : wire ((Effect.sync n).apply (f :: done)) =
          (wire done ++ (five f.payload.length ++ (head f.code ++ [0xce]))) ++
            (be 4 n.toNat ++ (f.body ++ [])) := by
        simp [Effect.apply, Frame.bytes, Frame.payload, five]
      rw [hold] at hi
      rw [hnew, hold]
      refine getElem?_patch (by simp) hi ?_
      by_contra hcon
      push Not at hcon
      simp only [List.length_append, List.length_singleton, be_length, five_length, head_length]
        at hcon
      -- the four bytes of the sync are
      exact hout ⟨_, h.sync_cons, by omega, by omega⟩

/-! ## §9 — the framing of a run. -/

/-- `0xce`, a number of four bytes in big-endian order, and that many bytes. -/
def IsFrame (bs : Bytes) : Prop :=
  ∃ field payload, bs = 0xce :: (field ++ payload) ∧ field.length = 4 ∧ beNat field = payload.length

/-- A frame says its length, if this has 32 bits, ... -/
theorem Frame.isFrame {f : Frame} (h : f.payload.length < 2 ^ 32) : IsFrame f.bytes :=
  ⟨be 4 f.payload.length, f.payload, rfl, be_length _ _, beNat_be h⟩

/-- ... which it has in a window of less than that. -/
theorem mem_payload_lt {frames : List Frame} {f : Frame} (hf : f ∈ frames) :
    f.payload.length < (wire frames).length := by
  induction frames with
  | nil => exact absurd hf (by simp)
  | cons g done ih =>
    rw [wire_cons, List.length_append, g.bytes_length]
    rcases List.mem_cons.mp hf with rfl | hin
    · have := f.payload_length
      omega
    · have := ih hin
      omega

/-- **The framing invariant.**  In every run in which nothing is appended, and no id set, before a
request has been started: the pointers are in order; the bytes in use are the frames of the calls
that did not return `NULL`, each with its length in front of it; `size` points to the last of them
and `sync` to the five bytes of its sync.  The next call is defined, returns `NULL` only with
everything as it was, and leaves all bytes written before except the length of the last frame, or
its sync.  The window may be moved by every call, and the two pointers into it are offsets that are
carried over; that they still lead to the same frame is the part of `Represents` that a move has to
keep. -/
theorem run_framed [Mpsize] {s : Nat} {buf : Bytes} {trace : Trace} {t : Tp}
    (h : Run s buf trace t) :
    t.s ≤ t.p ∧ t.p ≤ t.e ∧ t.bytes = ((written trace).reverse.map Frame.bytes).flatten ∧
    (tpUsed t < 2 ^ 32 → ∀ f ∈ written trace, IsFrame f.bytes) ∧
    (written trace = [] → t.size = none ∧ t.sync = none) ∧
    (∀ f done, written trace = f :: done → ∃ size sync, t.size = some size ∧ t.sync = some sync ∧
      t.s ≤ size ∧ t.bytes.drop (size - t.s) = f.bytes ∧ t.s ≤ sync ∧
      (t.bytes.drop (sync - t.s)).take 5 = 0xce :: be 4 f.sync.toNat) ∧
    ∀ R c, Trusted R → Allowed trace c → ∃ r t', c.run R t = some (r, t') ∧
      (r = .null → t' = t) ∧
      ∀ i < tpUsed t, ¬ c.effect.Patches t i → t'.bytes[i]? = t.bytes[i]? := by
  have hrep := h.represents
  refine ⟨hrep.s_le, hrep.p_le, hrep.bytes_eq, ?_, ?_, ?_, ?_⟩
  · intro hused f hf
    have hlt := mem_payload_lt hf
    rw [hrep.used] at hused
    exact Frame.isFrame (by omega)
  · intro hnil
    have hsize := hrep.size_eq
    have hsync := hrep.sync_eq
    rw [hnil] at hsize hsync
    exact ⟨hsize, hsync⟩
  · intro f done hcons
    rw [hcons] at hrep
    refine ⟨_, _, hrep.size_cons, hrep.sync_cons, Nat.le_add_right _ _, ?_, Nat.le_add_right _ _, ?_⟩
    · rw [Nat.add_sub_cancel_left, hrep.bytes_eq, wire_cons, List.drop_left]
    · -- the sync is in front of the body
      have hfive : (five f.sync.toNat ++ f.body).take 5 = five f.sync.toNat :=
        List.take_left' (five_length _)
      rw [Nat.add_sub_cancel_left, hrep.bytes_eq, wire_sync, ← before_sync_length f done,
        List.drop_left, hfive]
      rfl
  · intro R c hR hallowed
    rcases c.run_spec hR hrep hallowed.legal with ⟨hnull, -⟩ | ⟨r, t', hok, hret, hrep', -⟩
    · exact ⟨.null, t, hnull, fun _ => rfl, fun _ _ _ => rfl⟩
    · refine ⟨r, t', hok, fun hr => absurd hr hret, ?_⟩
      intro i hi hout
      rw [hrep.used] at hi
      rw [hrep'.bytes_eq, hrep.bytes_eq]
      exact hrep.kept hallowed.legal hi hout

/-- A callback that finds another place whenever it is asked. -/
def mover : Reserve := fun t n => some (t.s + 1000, t.bytes ++ List.replicate n 0)

/-- The callback that moves keeps its promise. -/
theorem mover_trusted : Trusted (some mover) := by
  intro reserve h t n np block hused hblock
  obtain rfl := Option.some.inj h
  obtain ⟨-, rfl⟩ := Prod.mk.inj (Option.some.inj hblock)
  have hlen := bytes_length hused
  refine ⟨?_, ?_⟩
  · rw [List.length_append, hlen, List.length_replicate]
  · rw [← hlen, List.take_left]

/-- Two requests that are moved at every call, from no window at all. -/
theorem run_framed_moved :
    ∃ t, @Run Mpsize.reference 0 [] [(.reqid 5, .void), (.encodeNil, .ptr 3035),
        (.insert 512, .ptr 2015), (.ping, .ptr 1000)] t ∧
      t.s ≤ t.p ∧ t.bytes = [0xce, 0, 0, 0, 10, 0x82, 0, 64, 1, 0xce, 0, 0, 0, 0, 0x80,
        0xce, 0, 0, 0, 16, 0x82, 0, 2, 1, 0xce, 0, 0, 0, 5, 0x82, 0x10, 0xcd, 2, 0, 0x21, 0xc0] := by
  let _ := Mpsize.reference
  have h₁ : Run 0 [] [(.ping, .ptr 1000)] ⟨1000, 1015, 1015, some 1000, some 1009,
      [0xce, 0, 0, 0, 10, 0x82, 0, 64, 1, 0xce, 0, 0, 0, 0, 0x80]⟩ :=
    .call .init mover_trusted (.inl rfl) (by decide +kernel)
  have h₂ : Run 0 [] [(.insert 512, .ptr 2015), (.ping, .ptr 1000)]
      ⟨2000, 2035, 2035, some 2015, some 2024,
        [0xce, 0, 0, 0, 10, 0x82, 0, 64, 1, 0xce, 0, 0, 0, 0, 0x80,
          0xce, 0, 0, 0, 15, 0x82, 0, 2, 1, 0xce, 0, 0, 0, 0, 0x82, 0x10, 0xcd, 2, 0, 0x21]⟩ :=
    .call h₁ mover_trusted (.inl rfl) (by decide +kernel)
  have h₃ : Run 0 [] [(.encodeNil, .ptr 3035), (.insert 512, .ptr 2015), (.ping, .ptr 1000)]
      ⟨3000, 3036, 3036, some 3015, some 3024,
        [0xce, 0, 0, 0, 10, 0x82, 0, 64, 1, 0xce, 0, 0, 0, 0, 0x80,
          0xce, 0, 0, 0, 16, 0x82, 0, 2, 1, 0xce, 0, 0, 0, 0, 0x82, 0x10, 0xcd, 2, 0, 0x21, 0xc0]⟩ :=
    .call h₂ mover_trusted (.inr ⟨_, List.mem_cons_self, rfl, by decide⟩) (by decide +kernel)
  have h₄ := Run.call (c := .reqid 5) h₃ mover_trusted
    (.inr ⟨(.insert 512, .ptr 2015), by simp, rfl, by decide⟩)
    (show _ = some (Ret.void, Tp.mk 3000 3036 3036 (some 3015) (some 3024)
        [0xce, 0, 0, 0, 10, 0x82, 0, 64, 1, 0xce, 0, 0, 0, 0, 0x80,
          0xce, 0, 0, 0, 16, 0x82, 0, 2, 1, 0xce, 0, 0, 0, 5, 0x82, 0x10, 0xcd, 2, 0, 0x21, 0xc0]) by
      decide +kernel)
  obtain ⟨hle, -, hbytes, -⟩ := run_framed h₄
  exact ⟨_, h₄, hle, hbytes.trans (by decide +kernel)⟩

/-- A buffer of ten bytes: there is no room for the ping, and `tp_encode_nil` runs into the
assertion that a request was started. -/
theorem append_after_null :
    let _ := Mpsize.reference
    let t := tpInit 0 (List.replicate 10 0)
    TpCall.ping.isRequest = true ∧ TpCall.ping.run none t = some (.null, t) ∧
      TpCall.encodeNil.run none t = none := by
  decide +kernel

end TarantoolC.Tp
