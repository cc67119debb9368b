/-
# TarantoolC.Request.Sync — the sync ids of compiled requests.

`tnt_request_compile` returns the sync id as an `int64_t`, with -1 for an error, so an id of
`2^64 - 1` must not be given out.  `tnt_request_writeout` sets the counter back to 0 where its lower
63 bits are all ones, at `2^63 - 1` and at `2^64 - 1`; it does so only for a caller who hands
`INT64_MAX` in, as `tnt_request_compile` does.

`tntRequestCompile_syncs`: what one call returns and leaves, and that fewer than `2^63` calls on one
stream give out distinct ids.

`ident r i` writes down the id of the `i`th call without running anything: the counter goes up to
the end of its half of the 64-bit range and starts again at 0.  What is left to prove of a run is
that each call moves the counter as `ident` does (`ident_zero`, `ident_succ`), and of `ident` that
it takes no value twice on fewer than `2^63` places (`ident_inj`).  A call that is refused leaves
the counter where it is, and so does one whose `writev` fails.
-/
import TarantoolC.Request.Builder

namespace TarantoolC.Request

open MsgPack Msgpuck Proto Object

/-! ## §1 — the calls. -/

/-- What a call returns and leaves: its result, `s->reqid`, `req->hdr.sync`, and the message if it
was written. -/
structure Compiled where
  rv : Int64
  reqid : UInt64
  sync : UInt64
  wire : Option Bytes

section Code

variable [Msgpuck]

/-- `tnt_request_compile`, to its end: `written` says whether `writev` succeeds. -/
def compileCall (written : Bool) (reqid : UInt64) (req : TntRequest) : Option Compiled := do
  let (sent, reqid, sync) ← tntRequestCompile reqid req
  match sent with
  | .refused => return ⟨-1, reqid, sync, none⟩
  | .writev iov =>
    if written then return ⟨sync.toInt64, reqid, sync, some iov.flatten⟩
    else return ⟨-1, reqid, sync, none⟩

/-- Calls on one stream, one after the other. -/
def compileRun : List (Bool × TntRequest) → UInt64 → Option (List Compiled)
  | [], _ => some []
  | (written, req) :: calls, reqid => do
    let c ← compileCall written reqid req
    let cs ← compileRun calls c.reqid
    return c :: cs

/-- The message has a length prefix, and a header with this type and sync id. -/
def Headed (wire : Bytes) (type : RequestType) (sync : UInt64) : Prop :=
  ∃ length body, wire = mpEncodeLuint32 length ++ (encode (header type sync.toNat) ++ body)

end Code

/-! ## §2 — the counter. -/

/-- `INT64_MAX`. -/
def int64Max : UInt64 := 0x7fffffffffffffff

/-- The counter where it is set back. -/
theorem nextSync_toNat (reqid : UInt64) :
    (nextSync reqid (some int64Max)).toNat =
      if reqid.toNat % 2 ^ 63 = 2 ^ 63 - 1 then 0 else reqid.toNat := by
  have hmask : (reqid &&& int64Max = int64Max) ↔ reqid.toNat % 2 ^ 63 = 2 ^ 63 - 1 := by
    rw [← UInt64.toNat_inj, UInt64.toNat_and,
      show int64Max.toNat = 2 ^ 63 - 1 from rfl, Nat.and_two_pow_sub_one_eq_mod]
  by_cases hwrap : reqid.toNat % 2 ^ 63 = 2 ^ 63 - 1
  · have hreset : nextSync reqid (some int64Max) = 0 := by
      simpa [nextSync, int64Max] using fun h => absurd (hmask.mpr hwrap) h
    rw [hreset, if_pos hwrap]
    rfl
  · have hkeep : nextSync reqid (some int64Max) = reqid := by
      simpa [nextSync, int64Max] using fun h => absurd (hmask.mp h) hwrap
    rw [hkeep, if_neg hwrap]

/-- An id that is given out is not the last of the 64-bit numbers. -/
theorem nextSync_lt (reqid : UInt64) :
    (nextSync reqid (some int64Max)).toNat < 2 ^ 64 - 1 := by
  have hlt := reqid.toNat_lt
  rw [nextSync_toNat]
  split
  · decide
  · omega

/-- The counter is not at its end when it is counted up, ... -/
theorem nextSync_succ (reqid : UInt64) :
    (nextSync reqid (some int64Max) + 1).toNat = (nextSync reqid (some int64Max)).toNat + 1 := by
  have hlt := nextSync_lt reqid
  rw [UInt64.toNat_add, UInt64.toNat_one, Nat.mod_eq_of_lt (by omega)]

/-- The id the `i`th call gives out if the counter starts at `r`: up to the end of the 64-bit
numbers if it starts in their upper half, and then round and round below `2^63 - 1`. -/
def ident (r i : Nat) : Nat :=
  if r < 2 ^ 63 then (r + i) % (2 ^ 63 - 1)
  else if i < 2 ^ 64 - 1 - r then r + i
  else (i - (2 ^ 64 - 1 - r)) % (2 ^ 63 - 1)

/-- ... so the first id is that of the call, ... -/
theorem ident_zero (reqid : UInt64) :
    ident reqid.toNat 0 = (nextSync reqid (some int64Max)).toNat := by
  have hlt := reqid.toNat_lt
  rw [nextSync_toNat, ident]
  split_ifs <;> omega

/-- ... and the ids behind it are those of the calls behind it. -/
theorem ident_succ (reqid : UInt64) (i : Nat) :
    ident (nextSync reqid (some int64Max) + 1).toNat i = ident reqid.toNat (i + 1) := by
  have hlt := reqid.toNat_lt
  rw [nextSync_succ, nextSync_toNat, ident, ident]
  split_ifs <;> omega

/-- The ids do not repeat before the counter has gone once round its lower half. -/
theorem ident_inj {r i j : Nat} (hr : r < 2 ^ 64) (hi : i < 2 ^ 63 - 1) (hj : j < 2 ^ 63 - 1)
    (h : ident r i = ident r j) : i = j := by
  unfold ident at h
  split_ifs at h <;> omega

/-! ## §3 — one call. -/

section Calls

variable [Msgpuck]

/-- A key that is written at all is written as some pair. -/
theorem keyStart_keyAs {tp : RequestType} {key start : Bytes} (h : keyStart tp key = some start) :
    ∃ f : Field, start ++ key = f.wire ∧ start.length ≤ 6 := by
  have htext : ∀ k : BodyKey, ∃ f : Field,
      mpEncodeKey k ++ mpEncodeStrl (UInt32.ofNat key.length) ++ key = f.wire ∧
        (mpEncodeKey k ++ mpEncodeStrl (UInt32.ofNat key.length)).length ≤ 6 := by
    intro k
    have h5 := mpEncodeStrl_length_le (UInt32.ofNat key.length)
    refine ⟨⟨k, .object (mpEncodeStrl (UInt32.ofNat key.length) ++ key)⟩, ?_, ?_⟩
    · rw [List.append_assoc, mpEncodeKey_eq]
      rfl
    · rw [List.length_append, mpEncodeKey_length]
      omega
  have hobj : ∀ k : BodyKey, ∃ f : Field, mpEncodeKey k ++ key = f.wire ∧
      (mpEncodeKey k).length ≤ 6 := by
    intro k
    refine ⟨⟨k, .object key⟩, ?_, ?_⟩
    · rw [mpEncodeKey_eq]
      rfl
    · rw [mpEncodeKey_length]
      omega
  cases tp <;> simp only [keyStart, Option.some.injEq, reduceCtorEq] at h <;> subst h
  case eval => exact htext _
  case call16 => exact htext _
  case call => exact htext _
  all_goals exact hobj _

/-- **What one call does**, on every request and every counter: it is refused or hands over a
message with the id in its header. -/
theorem tntRequestCompile_cases (reqid : UInt64) (req : TntRequest) :
    let sync := nextSync reqid (some int64Max)
    tntRequestCompile reqid req = some (.refused, sync + 1, sync) ∨
      ∃ iov, tntRequestCompile reqid req = some (.writev iov, sync + 1, sync) ∧
        Headed iov.flatten req.type sync := by
  intro sync
  have hsent : ∀ {keys : List Field}, req.KeyAs keys → ∃ iov,
      tntRequestCompile reqid req = some (.writev iov, sync + 1, sync) ∧
        Headed iov.flatten req.type sync := by
    intro keys hkeys
    obtain ⟨v, hsend, hpack⟩ := tntRequestWriteout_pieces reqid (some int64Max) hkeys
    refine ⟨_, hsend, UInt64.ofNat (v.map List.length).sum, ?_⟩
    rw [List.flatten_cons, hpack]
    exact ⟨_, rfl⟩
  cases hkey : req.key with
  | none => exact .inr (hsent (.none hkey))
  | some key =>
    cases hstart : keyStart req.type key with
    | none =>
      left
      simp [tntRequestCompile, tntRequestWriteout, writeKey, hkey, hstart, sync, int64Max]
    | some start =>
      obtain ⟨f, hwire, hlen⟩ := keyStart_keyAs hstart
      exact .inr (hsent (.one hkey hstart hwire hlen))

/-- Every call takes an id and moves on. -/
theorem compileCall_takes (written : Bool) (reqid : UInt64) (req : TntRequest) :
    ∃ c, compileCall written reqid req = some c ∧ c.sync = nextSync reqid (some int64Max) ∧
      c.reqid = c.sync + 1 ∧
      (∀ wire, c.wire = some wire → Headed wire req.type c.sync ∧ c.rv = c.sync.toInt64) := by
  rcases tntRequestCompile_cases reqid req with hno | ⟨iov, hyes, hhead⟩
  · refine ⟨_, by rw [compileCall, hno]; rfl, rfl, rfl, ?_⟩
    intro wire hwire
    exact absurd hwire (by simp)
  · cases written with
    | false =>
      refine ⟨_, by rw [compileCall, hyes]; rfl, rfl, rfl, ?_⟩
      intro wire hwire
      exact absurd hwire (by simp)
    | true =>
      refine ⟨_, by rw [compileCall, hyes]; rfl, rfl, rfl, ?_⟩
      intro wire hwire
      obtain rfl := Option.some.inj hwire
      exact ⟨hhead, rfl⟩

/-! ## §4 — runs. -/

/-- The ids of a run, in order. -/
theorem compileRun_syncs (calls : List (Bool × TntRequest)) (reqid : UInt64) :
    ∃ cs, compileRun calls reqid = some cs ∧
      cs.map (fun c => c.sync.toNat) = (List.range calls.length).map (ident reqid.toNat) := by
  induction calls generalizing reqid with
  | nil => exact ⟨[], rfl, rfl⟩
  | cons call calls ih =>
    obtain ⟨written, req⟩ := call
    obtain ⟨c, hcall, hsync, hnext, -⟩ := compileCall_takes written reqid req
    obtain ⟨cs, hrun, hids⟩ := ih c.reqid
    refine ⟨c :: cs, ?_, ?_⟩
    · simp only [compileRun, hcall, hrun, bind, Option.bind_some, pure]
    · rw [List.map_cons, hids, hnext, hsync, List.length_cons, List.range_succ_eq_map, List.map_cons,
        List.map_map, ident_zero]
      congr 1
      apply List.map_congr_left
      intro i _
      exact ident_succ reqid i

/-- **The ids of compiled requests.**  A call whose message was written returns the id in the header
of the message, never -1, and leaves the counter one above it; and the ids of the messages written
in a run of fewer than `2^63` calls, some of which may fail, are distinct.  The counter starts
anywhere, also near its end: it is set back before it can give out the one id that would be returned
as -1, and in `2^63` calls it does not come round. -/
theorem tntRequestCompile_syncs :
    (∀ (written : Bool) (reqid : UInt64) (req : TntRequest), ∃ c,
      compileCall written reqid req = some c ∧ ∀ wire, c.wire = some wire →
        Headed wire req.type c.sync ∧ c.rv = c.sync.toInt64 ∧ c.rv ≠ -1 ∧
          c.reqid.toNat = c.sync.toNat + 1) ∧
    ∀ (calls : List (Bool × TntRequest)) (reqid : UInt64), calls.length < 2 ^ 63 →
      ∃ cs, compileRun calls reqid = some cs ∧
        ((cs.filter fun c => c.wire.isSome).map Compiled.sync).Nodup := by
  refine ⟨?_, ?_⟩
  · intro written reqid req
    obtain ⟨c, hcall, hsync, hnext, hwire⟩ := compileCall_takes written reqid req
    have hlt : c.sync.toNat < 2 ^ 64 - 1 := by
      rw [hsync]
      exact nextSync_lt reqid
    refine ⟨c, hcall, ?_⟩
    intro wire hsome
    obtain ⟨hhead, hrv⟩ := hwire wire hsome
    refine ⟨hhead, hrv, ?_, ?_⟩
    · intro herr
      -- the pattern of -1 is the number that is not given out
      rw [hrv] at herr
      have hback : c.sync = (-1 : Int64).toUInt64 := by rw [← herr, UInt64.toUInt64_toInt64]
      rw [hback] at hlt
      exact absurd hlt (by decide)
    · rw [hnext, hsync, nextSync_succ]
  · intro calls reqid hlen
    obtain ⟨cs, hrun, hids⟩ := compileRun_syncs calls reqid
    refine ⟨cs, hrun, ?_⟩
    have hall : (cs.map fun c => c.sync.toNat).Nodup := by
      rw [hids]
      apply List.Nodup.map_on _ List.nodup_range
      intro i hi j hj heq
      rw [List.mem_range] at hi hj
      exact ident_inj reqid.toNat_lt (by omega) (by omega) heq
    have hsyncs : (cs.map Compiled.sync).Nodup := by
      apply List.Nodup.of_map UInt64.toNat
      rw [List.map_map]
      exact hall
    exact hsyncs.sublist (List.filter_sublist.map _)

end Calls

/-- At the last id of the lower half the counter goes back to 0: two pings from there on. -/
theorem tntRequestCompile_syncs_wrap :
    ∃ cs, @compileRun Msgpuck.reference
        [(true, tntRequestNew .ping), (true, tntRequestNew .ping)] 0x7ffffffffffffffe = some cs ∧
      (cs.filter fun c => c.wire.isSome).map Compiled.sync = [0x7ffffffffffffffe, 0] ∧
      ((cs.filter fun c => c.wire.isSome).map Compiled.sync).Nodup := by
  obtain ⟨cs, hrun, hnodup⟩ := (@tntRequestCompile_syncs Msgpuck.reference).2
    [(true, tntRequestNew .ping), (true, tntRequestNew .ping)] 0x7ffffffffffffffe (by decide)
  obtain rfl := Option.some.inj hrun
  exact ⟨_, hrun, by decide, hnodup⟩

end TarantoolC.Request
