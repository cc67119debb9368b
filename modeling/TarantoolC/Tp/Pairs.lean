/-
# TarantoolC.Tp.Pairs — the map iterator of `tp.h`.

It steps over a key and the value behind it.  The index counts the calls of `tp_map_itr_next` since
the iterator was made or reset, those behind the last pair too, and the pointers stay where the last
pair left them; so that it makes sense to go on asking, and to reset at any time.  Calls come in any
order here (`ItrCall`), and the invariant is about how often the iterator was asked (`Asked`).

`Asked buf itr as k` does not say where the iterator stands but how often it was asked, and its
position follows: on the pair `k - 1` if there is one, and on the last pair else.  In this form a
call behind the last pair is a step like any other, and so is a reset (`Asked.reset`).
-/
import TarantoolC.Tp.Reply
import TarantoolC.Iter

namespace TarantoolC.Tp

open MsgPack Msgpuck Reply Iter

/-! ## §1 — the code. -/

/-- `struct tp_map_itr`; pointers are offsets into the buffer.  They are `NULL` in a cleared
iterator. -/
structure MapItr where
  data : Option Nat
  firstKey : Option Nat
  key : Option Nat
  keyEnd : Option Nat
  value : Option Nat
  valueEnd : Option Nat
  pairCount : Nat
  curIndex : Int
  deriving Repr, DecidableEq

/-- `memset(itr, 0, …)`. -/
def zeroMapItr : MapItr := ⟨none, none, none, none, none, none, 0, 0⟩

inductive ItrCall where
  | next | reset
  deriving Repr, DecidableEq

section Code

variable [Msgpuck]

/-- `tp_map_itr_init`.  It looks at the type first and checks the bytes then, within `size`; only
the header is decoded. -/
def tpMapItrInit (buf : Bytes) (data size : Nat) : Outcome MapItr :=
  if size = 0 then .fail
  else do
    expectType buf data .map
    match mpCheck ((buf.drop data).take size) with
    | none => .fail
    | some _ =>
      let (n, p) ← decodeMapAt buf data
      return { zeroMapItr with
        data := some data, firstKey := some p, pairCount := n, curIndex := -1 }

/-- `tp_map_itr_next`.  Incrementing `INT_MAX` is undefined.  The index is increased before it is
compared, and compared as an unsigned number. -/
def tpMapItrNext (buf : Bytes) (itr : MapItr) : Outcome (Bool × MapItr) := do
  if itr.curIndex = intMax then .undef
  else
    let itr := { itr with curIndex := itr.curIndex + 1 }
    if itr.pairCount ≤ (itr.curIndex % 2 ^ 32).toNat then return (false, itr)
    let key ← .ofReader (if itr.curIndex = 0 then itr.firstKey else itr.valueEnd)
    let keyEnd ← nextAt buf key
    let valueEnd ← nextAt buf keyEnd
    return (true, { itr with
      key := some key, keyEnd := some keyEnd, value := some keyEnd, valueEnd := some valueEnd })

omit [Msgpuck] in
/-- `tp_map_itr_reset`. -/
def tpMapItrReset (itr : MapItr) : MapItr :=
  { itr with curIndex := -1, key := none, keyEnd := none, value := none, valueEnd := none }

/-- What the function returns, if it returns something. -/
def ItrCall.run (buf : Bytes) (itr : MapItr) : ItrCall → Outcome (Option Bool × MapItr)
  | .next => do
    let (more, itr) ← tpMapItrNext buf itr
    return (some more, itr)
  | .reset => .ok (none, tpMapItrReset itr)

def runItrCalls (buf : Bytes) : List ItrCall → MapItr → Outcome (List (Option Bool) × MapItr)
  | [], itr => .ok ([], itr)
  | c :: calls, itr => do
    let (answer, itr) ← c.run buf itr
    let (answers, itr) ← runItrCalls buf calls itr
    return (answer :: answers, itr)

end Code

/-! ## §2 — how often it was asked.

`k` counts the calls of `tp_map_itr_next` since the last reset. -/

def ItrCall.asked (k : Nat) : ItrCall → Nat
  | .next => k + 1
  | .reset => 0

/-- Of `n` pairs, is there one left? -/
def ItrCall.answer (n k : Nat) : ItrCall → Option Bool
  | .next => some (k < n)
  | .reset => none

def answersOf (n : Nat) : Nat → List ItrCall → List (Option Bool)
  | _, [] => []
  | k, c :: calls => c.answer n k :: answersOf n (c.asked k) calls

/-- A call asks once at most. -/
theorem ItrCall.asked_le (k : Nat) (c : ItrCall) : c.asked k ≤ k + 1 := by
  cases c with
  | next => exact Nat.le_refl _
  | reset => exact Nat.zero_le _

/-- The pointers are those of the pair. -/
structure OnPair (itr : MapItr) (a : Pair) : Prop where
  key : itr.key = some a.key
  keyEnd : itr.keyEnd = some a.keyEnd
  value : itr.value = some a.value
  valueEnd : itr.valueEnd = some a.valueEnd

/-- The iterator is over these pairs, and was asked so often. -/
structure Asked (buf : Bytes) (itr : MapItr) (as : List Pair) (k : Nat) : Prop where
  count : itr.pairCount = as.length
  chain : ∃ first kvs q, itr.firstKey = some first ∧ Pairs buf first kvs q as
  index : itr.curIndex = (k : Int) - 1
  cur : ∀ j a, k = j + 1 → as[j]? = some a → OnPair itr a

section Calls

variable [Msgpuck] {buf : Bytes} {itr : MapItr} {as : List Pair} {k : Nat}

omit [Msgpuck] in
/-- A reset begins anew, wherever the iterator is. -/
theorem Asked.reset (h : Asked buf itr as k) : Asked buf (tpMapItrReset itr) as 0 where
  count := h.count
  chain := h.chain
  index := rfl
  cur j a h := absurd h (by omega)

omit [Msgpuck] in
/-- Where the next key is: the first one behind the header, the others behind the value before.  The
pair before was visited by the call before, since the only other call is a reset. -/
theorem Asked.pointer (h : Asked buf itr as k) (hlt : k < as.length) :
    (if (k : Int) = 0 then itr.firstKey else itr.valueEnd) = some as[k].key := by
  obtain ⟨first, kvs, q, hfirst, hchain⟩ := h.chain
  have hget : as[k]? = some as[k] := List.getElem?_eq_getElem hlt
  cases k with
  | zero => rw [if_pos Int.natCast_zero, hfirst, hchain.start_first hget]
  | succ k =>
    have hprev : as[k]? = some as[k] := List.getElem?_eq_getElem (by omega)
    rw [if_neg (by omega), (h.cur k as[k] rfl hprev).valueEnd, hchain.start_next hprev hget]

/-- **One call of `tp_map_itr_next`**, behind the last pair or not.  Behind the last pair only the
index moves. -/
theorem Asked.next (h : Asked buf itr as k) (hk : k < 2 ^ 31) :
    ∃ itr', tpMapItrNext buf itr = .ok (decide (k < as.length), itr') ∧
      Asked buf itr' as (k + 1) := by
  have hcount := h.count
  have hmax : ¬ itr.curIndex = intMax := by
    rw [h.index, intMax]
    omega
  have hindex : itr.curIndex + 1 = k := by
    rw [h.index]
    omega
  have hafter : (k : Int) = ((k + 1 : Nat) : Int) - 1 := by omega
  have hmod : ((k : Int) % 2 ^ 32).toNat = k := by omega
  by_cases hlt : k < as.length
  · obtain ⟨first, kvs, q, hfirst, hchain⟩ := h.chain
    obtain ⟨kv, hkey, hvalue, hval⟩ := hchain.item (List.getElem?_eq_getElem hlt)
    rw [hvalue] at hval
    refine ⟨{ itr with
      curIndex := k, key := some as[k].key, keyEnd := some as[k].keyEnd
      value := some as[k].keyEnd, valueEnd := some as[k].valueEnd }, ?_,
      hcount, h.chain, hafter, ?_⟩
    · simp only [tpMapItrNext, if_neg hmax, hindex, hmod, hcount, if_neg (Nat.not_le_of_lt hlt),
        h.pointer hlt, Outcome.ofReader, Outcome.ok_bind, hkey.next, hval.next, Outcome.pure_eq,
        decide_eq_true hlt]
    · -- the pair it is on now
      intro j a hj ha
      obtain rfl : k = j := by omega
      rw [List.getElem?_eq_getElem hlt] at ha
      rw [← Option.some.inj ha]
      exact ⟨rfl, rfl, congrArg some hvalue.symm, rfl⟩
  · -- only the index moves on
    have hend : itr.pairCount ≤ k := by omega
    refine ⟨{ itr with curIndex := k }, ?_, hcount, h.chain, hafter, ?_⟩
    · simp only [tpMapItrNext, if_neg hmax, hindex, hmod, if_pos hend, Outcome.pure_eq,
        decide_eq_false hlt]
    · intro j a hj ha
      obtain ⟨hj', -⟩ := List.getElem?_eq_some_iff.mp ha
      omega

/-- A call.  The step lemma: the answer depends on the count alone. -/
theorem Asked.call (h : Asked buf itr as k) (hk : k < 2 ^ 31) (c : ItrCall) :
    ∃ itr', c.run buf itr = .ok (c.answer as.length k, itr') ∧ Asked buf itr' as (c.asked k) := by
  cases c with
  | next =>
    obtain ⟨itr', hnext, hasked⟩ := h.next hk
    refine ⟨itr', ?_, hasked⟩
    rw [ItrCall.run, hnext]
    rfl
  | reset => exact ⟨tpMapItrReset itr, rfl, h.reset⟩

/-- Any run of calls.  By induction on the calls.  The bound is that of the index, which is an
`int`. -/
theorem Asked.calls (h : Asked buf itr as k) {calls : List ItrCall}
    (hfew : k + calls.length ≤ 2 ^ 31) :
    ∃ itr', runItrCalls buf calls itr = .ok (answersOf as.length k calls, itr') ∧
      Asked buf itr' as (calls.foldl ItrCall.asked k) := by
  induction calls generalizing itr k with
  | nil => exact ⟨itr, rfl, h⟩
  | cons c calls ih =>
    rw [List.length_cons] at hfew
    have hle := c.asked_le k
    obtain ⟨itr₁, hrun, hasked⟩ := h.call (by omega) c
    obtain ⟨itr', hrest, hasked'⟩ := ih hasked (by omega)
    refine ⟨itr', ?_, hasked'⟩
    simp only [runItrCalls, hrun, hrest, Outcome.ok_bind, Outcome.pure_eq, answersOf]

/-! ## §3 — `tp_map_itr_init`. -/

/-- At a map.  The map may have bytes before it and behind it, and `size` may be more than it takes.
-/
theorem tpMapItrInit_map {kvs : List (Value × Value)} {bs : Bytes} (h : Encodes (.map kvs) bs)
    (pre rest post : Bytes) :
    ∃ itr first as,
      tpMapItrInit (pre ++ (bs ++ rest ++ post)) pre.length (bs ++ rest).length = .ok itr ∧
      Pairs (pre ++ (bs ++ rest ++ post)) first kvs (pre ++ bs).length as ∧
      Asked (pre ++ (bs ++ rest ++ post)) itr as 0 := by
  have hpos := h.length_pos
  have htype : expectType (pre ++ (bs ++ rest ++ post)) pre.length .map = .ok () := by
    rw [List.append_assoc bs]
    exact expectType_front pre (rest ++ post) h
  have hcheck := mpCheck_front h rest
  obtain ⟨b, l, ds, body, rfl, hlead, hl, hbody⟩ := h.map_cases
  -- the pairs, one behind the other from the end of the header to the end of the map
  obtain ⟨as, has⟩ := pairs_of_encodes hbody (pre ++ b :: ds) (rest ++ post)
  have hmem : pre ++ b :: ds ++ (body ++ (rest ++ post)) =
      pre ++ (b :: ds ++ body ++ rest ++ post) := by simp
  have hend : pre ++ b :: ds ++ body = pre ++ (b :: ds ++ body) := by simp
  rw [hmem, hend] at has
  have hdec : mpDecodeMap (b :: ds ++ body ++ rest ++ post) = some (kvs.length, 1 + ds.length) :=
    (mpDecodeMap_iff _ _ _).mpr ⟨b, l, ds, body ++ (rest ++ post), by simp, hlead, hl, rfl⟩
  have hopen : decodeMapAt (pre ++ (b :: ds ++ body ++ rest ++ post)) pre.length =
      .ok (kvs.length, (pre ++ b :: ds).length) := by
    rw [decodeMapAt, List.drop_left, hdec, List.length_append, List.length_cons,
      Nat.add_comm ds.length]
    rfl
  -- what the constructor leaves is over these pairs, and was not asked yet
  refine ⟨{ zeroMapItr with
    data := some pre.length, firstKey := some (pre ++ b :: ds).length, pairCount := kvs.length,
    curIndex := -1 }, _, as, ?_, has, has.length_eq.symm, ⟨_, kvs, _, rfl, has⟩, rfl, ?_⟩
  · rw [tpMapItrInit, if_neg (by rw [List.length_append]; omega)]
    simp only [htype, Outcome.ok_bind, List.drop_left, List.take_left, hcheck, hopen,
      Outcome.pure_eq]
  · intro j a hj
    omega

/-- Anywhere else.  That is, where the bytes within `size` do not begin with a whole map. -/
theorem tpMapItrInit_fail {data : Bytes} (h : ¬ StartsWithMap data) (pre post : Bytes) :
    tpMapItrInit (pre ++ (data ++ post)) pre.length data.length = .fail := by
  cases data with
  | nil => rfl
  | cons b data =>
    rw [tpMapItrInit, if_neg (by rw [List.length_cons]; omega), List.drop_left, List.take_left]
    have htype : typeAt (pre ++ (b :: data ++ post)) pre.length = .ok (mpTypeof b) := by
      have hget : (pre ++ (b :: data ++ post))[pre.length]? = some b := by simp
      rw [typeAt, hget]
      rfl
    rw [expectType, htype, Outcome.ok_bind]
    split_ifs with hty
    · rfl
    · -- the first byte is that of a map: there is no complete value
      have hnone : mpCheck (b :: data) = none := by
        cases hcheck : mpCheck (b :: data) with
        | none => rfl
        | some n =>
          exfalso
          obtain ⟨v, bs, rest, hdata, hv, -⟩ := (mpCheck_iff _ _).mp hcheck
          have hvty : v.ty = .map := by
            cases bs with
            | nil => exact absurd rfl hv.ne_nil
            | cons b' bs =>
              obtain ⟨rfl, -⟩ := List.cons.inj hdata
              rw [← mpTypeof_front hv]
              exact not_not.mp hty
          obtain ⟨kvs, rfl⟩ := Value.eq_map_of_ty hvty
          exact h ⟨kvs, bs, rest, hdata, hv⟩
      rw [hnone]
      rfl

end Calls

/-- **The map iterator of `tp.h`**, on every byte string: `tp_map_itr_init` fails exactly where the
string does not start with a complete map.  Else, in every run of up to 2^31 calls of
`tp_map_itr_next` and `tp_map_itr_reset`, the n-th call of the former since the last reset returns
true exactly if there is an n-th pair, and moves the pointers to it.  A call behind the last pair is
counted like the others but moves nothing, so a reset after any number of them starts with the first
pair again. -/
theorem tpMapItr_visits [Msgpuck] (pre data post : Bytes) :
    (tpMapItrInit (pre ++ (data ++ post)) pre.length data.length = .fail ↔ ¬ StartsWithMap data) ∧
    ∀ kvs bs rest, data = bs ++ rest → Encodes (.map kvs) bs → ∃ itr first as,
      tpMapItrInit (pre ++ (data ++ post)) pre.length data.length = .ok itr ∧
      Pairs (pre ++ (data ++ post)) first kvs (pre ++ bs).length as ∧
      ∀ calls : List ItrCall, calls.length ≤ 2 ^ 31 → ∃ itr',
        runItrCalls (pre ++ (data ++ post)) calls itr = .ok (answersOf kvs.length 0 calls, itr') ∧
        ∀ j a, calls.foldl ItrCall.asked 0 = j + 1 → as[j]? = some a → OnPair itr' a := by
  refine ⟨⟨?_, fun h => tpMapItrInit_fail h pre post⟩, ?_⟩
  · rintro hfail ⟨kvs, bs, rest, rfl, hbs⟩
    obtain ⟨itr, -, -, hinit, -⟩ := tpMapItrInit_map hbs pre rest post
    rw [hfail] at hinit
    cases hinit
  · rintro kvs bs rest rfl hbs
    obtain ⟨itr, first, as, hinit, hpairs, hasked⟩ := tpMapItrInit_map hbs pre rest post
    refine ⟨itr, first, as, hinit, hpairs, fun calls hfew => ?_⟩
    obtain ⟨itr', hrun, hasked'⟩ := hasked.calls (by omega : 0 + calls.length ≤ 2 ^ 31)
    rw [hpairs.length_eq] at hrun
    exact ⟨itr', hrun, hasked'.cur⟩

/-- `{1: [2], 3: 4}`, with a byte before it and one behind; a reset behind the end. -/
theorem tpMapItr_visits_two :
    ∃ itr itr', @tpMapItrInit Msgpuck.reference [0xc0, 0x82, 1, 0x91, 2, 3, 4, 0xc0] 1 7 = .ok itr ∧
      @runItrCalls Msgpuck.reference [0xc0, 0x82, 1, 0x91, 2, 3, 4, 0xc0]
        [.next, .next, .next, .reset, .next] itr =
          .ok ([some true, some true, some false, none, some true], itr') := by
  have henc : Encodes (.map [(.uint 1, .array [.uint 2]), (.uint 3, .uint 4)])
      [0x82, 1, 0x91, 2, 3, 4] :=
    encodes_encodeWith packed_sound (.map [(.uint 1, .array [.uint 2]), (.uint 3, .uint 4)])
      (by simp [Value.Fits, FitsAll, FitsPairs])
  obtain ⟨-, hvisits⟩ := @tpMapItr_visits Msgpuck.reference [0xc0] [0x82, 1, 0x91, 2, 3, 4, 0xc0] []
  obtain ⟨itr, first, as, hinit, -, hruns⟩ := hvisits _ _ [0xc0] rfl henc
  obtain ⟨itr', hrun, -⟩ := hruns [.next, .next, .next, .reset, .next] (by decide)
  exact ⟨itr, itr', hinit, hrun⟩

end TarantoolC.Tp
