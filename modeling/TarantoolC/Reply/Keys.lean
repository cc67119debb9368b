/-
# TarantoolC.Reply.Keys — header and body parsers on ANY byte string, and the bitmap of keys.

`mp_check` says that a map stands there, not what its keys are.  `tnt_reply_hdr0` looks at the type
of every key and every value before it decodes them.  `tnt_reply_body0` does not look at the type of
a key: `mp_decode_uint` is applied to whatever stands there, unless a value of a wrong type has
ended the loop before (`tntReply_parsers_defined_iff`).

Both parsers note the keys they have seen in a word of 64 bits, by a shift.  Keys are decoded as
64-bit numbers and kept in 32 bits, so what is shifted by is the key modulo `2^32`, and it need not
be below 64: `TNT_SQL_INFO` is `0x42` (`tntReply0_bitmap_iff`).

The strings here are any strings.  What stands in front of one is decided first (`front_cases`): no
complete map, and both parsers end with an error; or a map, with keys and values of every type, and
the loops go over its pairs as long as they find what they ask for.  So the conditions are about the
map in front of the string, and can be evaluated on it:

* the body parser is safe exactly if every key that is not a number stands behind a pair that is
  refused (`BodyClear`);
* the bitmap is exact exactly if the low 32 bits of every key are below 64 and those of an accepted
  key are the key itself (`KeysClear`).
-/
import TarantoolC.Reply.Length

namespace TarantoolC.Reply

open MsgPack Msgpuck Proto

/-! ## §1 — one pair of a body.

A turn of the loop on a pair of any types: it is taken, it ends the loop with an error, or it is
undefined.  The three exclude each other, by the types alone. -/

/-- The type that `tnt_reply_body0` asks for under a key. -/
def wantedTy (key : Nat) : Option Ty :=
  if key = ResponseKey.error.num then some .str
  else if key = ResponseKey.data.num then some .array
  else if key = ResponseKey.metadata.num then some .array
  else if key = ResponseKey.sqlInfo.num then some .map
  else none

/-- The value has another type than the one asked for. -/
def Refuses (key : Nat) (v : Value) : Prop := ∃ t, wantedTy key = some t ∧ v.ty ≠ t

/-- The text of a string value. -/
def Value.text : Value → Bytes
  | .str s => s
  | _ => []

/-- What a value from `first` to `stop` changes in the body. -/
def Body.put (b : Body) (key : Nat) (v : Value) (first stop : Nat) : Body :=
  if key = ResponseKey.error.num then
    { b with error := some ⟨stop - (Value.text v).length, stop⟩ }
  else if key = ResponseKey.data.num then { b with data := some ⟨first, stop⟩ }
  else if key = ResponseKey.metadata.num then { b with metadata := some ⟨first, stop⟩ }
  else if key = ResponseKey.sqlInfo.num then { b with sqlinfo := some ⟨first, stop⟩ }
  else b

/-- Storing a value does not touch the bitmap. -/
@[simp] theorem Body.put_bitmap (b : Body) (key : Nat) (v : Value) (first stop : Nat) :
    (b.put key v first stop).bitmap = b.bitmap := by
  unfold Body.put
  split_ifs <;> rfl

section Parsers

variable [Msgpuck]

/-- A type test in front of a value. -/
theorem expectType_eq {v : Value} {bs : Bytes} (henc : Encodes v bs) (pre rest : Bytes) (t : Ty) :
    expectType (pre ++ (bs ++ rest)) pre.length t = if v.ty = t then .ok () else .fail := by
  rw [expectType, typeAt_front pre rest henc]
  by_cases hty : v.ty = t
  · simp [hty]
  · simp [hty]

/-- **One turn of the body loop, behind its key**: a value of another type than the one asked for is
refused, ... -/
theorem bodyStep_refuses {v : Value} {bs : Bytes} (henc : Encodes v bs) (pre rest : Bytes)
    {key : Nat} (b : Body) (h : Refuses key v) :
    bodyStep (pre ++ (bs ++ rest)) key pre.length b = .fail := by
  obtain ⟨t, hwant, hty⟩ := h
  have htype : expectType (pre ++ (bs ++ rest)) pre.length t = .fail := by
    rw [expectType_eq henc, if_neg hty]
  unfold wantedTy at hwant
  unfold bodyStep
  split_ifs at hwant ⊢ with k1 k2 k3 k4
  all_goals
    obtain rfl := Option.some.inj hwant
    rw [htype]
    rfl

/-- ... and every other one is passed over and noted. -/
theorem bodyStep_takes {v : Value} {bs : Bytes} (henc : Encodes v bs) (pre rest : Bytes)
    {key : Nat} (b : Body) (h : ¬ Refuses key v) :
    bodyStep (pre ++ (bs ++ rest)) key pre.length b =
      .ok (b.put key v pre.length (pre ++ bs).length, (pre ++ bs).length) := by
  have hnext := nextAt_front pre rest henc
  have hty : ∀ t, wantedTy key = some t → v.ty = t := by
    intro t hwant
    by_contra hne
    exact h ⟨t, hwant, hne⟩
  have htype : ∀ t, wantedTy key = some t →
      expectType (pre ++ (bs ++ rest)) pre.length t = .ok () := by
    intro t hwant
    rw [expectType_eq henc, if_pos (hty t hwant)]
  unfold wantedTy at hty htype
  unfold bodyStep Body.put
  split_ifs at hty htype ⊢ with k1 k2 k3 k4
  · obtain ⟨s, rfl⟩ := Value.eq_str_of_ty (hty .str rfl)
    simp [htype .str rfl, decodeStrAt_front pre rest henc, Value.text]
  · simp [htype .array rfl, hnext]
  · simp [htype .array rfl, hnext]
  · simp [htype .map rfl, hnext]
  · simp [hnext]

/-- A key that is not a number is outside the contract of `mp_decode_uint`. -/
theorem decodeUintAt_other {v : Value} {bs : Bytes} (henc : Encodes v bs) (pre rest : Bytes)
    (hty : v.ty ≠ .uint) : decodeUintAt (pre ++ (bs ++ rest)) pre.length = .undef := by
  cases hdec : mpDecodeUint (bs ++ rest) with
  | none => simp [decodeUintAt, hdec, Outcome.ofReader]
  | some r =>
    obtain ⟨n, k⟩ := r
    have hok : decodeUintAt (pre ++ (bs ++ rest)) pre.length = .ok (n, pre.length + k) := by
      simp [decodeUintAt, hdec, Outcome.ofReader]
    obtain ⟨rfl, -⟩ := decodeUintAt_inv pre rest henc hok
    exact absurd rfl hty

/-! ## §2 — the body loop.

An induction on the pairs that are left.  The first pair that is not taken decides. -/

/-- The pointers of a body. -/
def Body.spans (b : Body) : List Span := [b.error, b.data, b.metadata, b.sqlinfo].filterMap id

/-- Every pair of pointers of the body is in order and leads into the first `n` bytes. -/
def Body.Inside (b : Body) (n : Nat) : Prop := ∀ s ∈ b.spans, s.first ≤ s.last ∧ s.last ≤ n

omit [Msgpuck] in
/-- A new pair of pointers is in order, and leads no further than the value. -/
theorem Body.Inside.put {b : Body} {n : Nat} (h : b.Inside n) (key : Nat) (v : Value)
    {first stop : Nat} (hle : first ≤ stop) (hn : n ≤ stop) : (b.put key v first stop).Inside stop := by
  have hold : ∀ s ∈ b.spans, s.first ≤ s.last ∧ s.last ≤ stop := by
    intro s hs
    obtain ⟨horder, hlast⟩ := h s hs
    exact ⟨horder, hlast.trans hn⟩
  unfold Body.put Body.Inside
  simp only [Body.spans, List.mem_filterMap, List.mem_cons, List.not_mem_nil, or_false, id] at hold ⊢
  intro s hs
  split_ifs at hs with k1 k2 k3 k4
  all_goals grind

/-- The pair's key is a number, and its value is refused under it. -/
def RefusedPair (kv : Value × Value) : Prop :=
  ∃ n, kv.1 = .uint n ∧ Refuses (n % 2 ^ 32) kv.2

/-- The keys of a map that are numbers. -/
def mapKeys (kvs : List (Value × Value)) : List Nat :=
  kvs.filterMap fun kv => match kv.1 with
    | .uint n => some n
    | _ => none

section Pair

variable {k v : Value} {kb vb : Bytes} (hk : Encodes k kb) (hv : Encodes v vb) (pre rest : Bytes)
  (n : Nat) (b : Body)

include hk in
/-- A turn at a key that is not a number. -/
theorem bodyLoop_other (hty : k.ty ≠ .uint) :
    bodyLoop (pre ++ (kb ++ rest)) (n + 1) pre.length b = .undef := by
  rw [bodyLoop, decodeUintAt_other hk pre rest hty]
  rfl

include hk hv in
/-- A turn at a value that is refused. -/
theorem bodyLoop_refuses (h : RefusedPair (k, v)) :
    bodyLoop (pre ++ (kb ++ (vb ++ rest))) (n + 1) pre.length b = .fail := by
  obtain ⟨num, rfl, href⟩ := h
  have hstep := bodyStep_refuses hv (pre ++ kb) rest b href
  rw [List.append_assoc] at hstep
  simp only [bodyLoop, decodeUintAt_front pre (vb ++ rest) hk, Outcome.ok_bind, hstep,
    Outcome.fail_bind]

include hk hv in
/-- Any other turn goes on behind the pair. -/
theorem bodyLoop_takes {num : Nat} (hnum : k = .uint num) (h : ¬ RefusedPair (k, v)) :
    bodyLoop (pre ++ (kb ++ (vb ++ rest))) (n + 1) pre.length b =
      bodyLoop ((pre ++ kb ++ vb) ++ rest) n (pre ++ kb ++ vb).length
        { b.put (num % 2 ^ 32) v (pre ++ kb).length (pre ++ kb ++ vb).length with
          bitmap := setBit b.bitmap (num % 2 ^ 32) } := by
  subst hnum
  have hstep := bodyStep_takes hv (pre ++ kb) rest b fun href => h ⟨num, rfl, href⟩
  have hmem : pre ++ (kb ++ (vb ++ rest)) = (pre ++ kb) ++ (vb ++ rest) := by
    rw [List.append_assoc]
  have hmem' : (pre ++ kb) ++ (vb ++ rest) = (pre ++ kb ++ vb) ++ rest := by
    simp only [List.append_assoc]
  have hdec := decodeUintAt_front pre (vb ++ rest) hk
  rw [hmem] at hdec ⊢
  simp only [bodyLoop, hdec, Outcome.ok_bind, hstep, Body.put_bitmap]
  rw [hmem']

end Pair

/-- **When the body loop is undefined**: at a key that is not a number, before any pair is refused.
An induction on the pairs in front of that key, all of which are taken. -/
theorem bodyLoop_undef_iff {kvs : List (Value × Value)} {pre bs rest : Bytes} {b : Body}
    (henc : EncodesAll (flat kvs) bs) :
    bodyLoop (pre ++ (bs ++ rest)) kvs.length pre.length b = .undef ↔
      ∃ l kv r, kvs = l ++ kv :: r ∧ kv.1.ty ≠ .uint ∧ ∀ p ∈ l, ¬ RefusedPair p := by
  induction kvs generalizing pre bs b with
  | nil => simp [bodyLoop]
  | cons kv kvs ih =>
    obtain ⟨k, v⟩ := kv
    obtain ⟨kb, c, rfl, hk, henc'⟩ := henc.cons_cases
    obtain ⟨vb, bs', rfl, hv, hkvs⟩ := henc'.cons_cases
    have hmem : pre ++ (kb ++ (vb ++ bs') ++ rest) = pre ++ (kb ++ (vb ++ (bs' ++ rest))) := by
      simp only [List.append_assoc]
    rw [hmem, List.length_cons]
    by_cases hty : k.ty = .uint
    · obtain ⟨num, rfl⟩ := Value.eq_uint_of_ty hty
      by_cases href : RefusedPair (.uint num, v)
      · rw [bodyLoop_refuses hk hv _ _ _ _ href]
        constructor
        · intro h
          cases h
        · rintro ⟨l, kv, r, heq, hne, hall⟩
          -- the refused pair is the first: it is the offending one, or stands before it
          cases l with
          | nil =>
            obtain ⟨rfl, -⟩ := List.cons.inj heq
            exact absurd rfl hne
          | cons p l =>
            obtain ⟨rfl, -⟩ := List.cons.inj heq
            exact absurd href (hall _ (by simp))
      · rw [bodyLoop_takes hk hv _ _ _ _ rfl href, ih hkvs]
        constructor
        · rintro ⟨l, kv, r, rfl, hne, hall⟩
          refine ⟨(.uint num, v) :: l, kv, r, rfl, hne, ?_⟩
          intro p hp
          rcases List.mem_cons.mp hp with rfl | hp
          · exact href
          · exact hall p hp
        · rintro ⟨l, kv, r, heq, hne, hall⟩
          cases l with
          | nil =>
            obtain ⟨rfl, -⟩ := List.cons.inj heq
            exact absurd rfl hne
          | cons p l =>
            obtain ⟨-, rfl⟩ := List.cons.inj heq
            exact ⟨l, kv, r, rfl, hne, fun q hq => hall q (by simp [hq])⟩
    · rw [bodyLoop_other hk _ _ _ _ hty]
      exact ⟨fun _ => ⟨[], (k, v), kvs, rfl, hty, by simp⟩, fun _ => rfl⟩

/-- **What the body loop takes**: numbers as keys, each noted by its low 32 bits, and pointers into
the pairs. -/
theorem bodyLoop_ok {kvs : List (Value × Value)} {pre bs rest : Bytes} {b b' : Body} {q : Nat}
    (henc : EncodesAll (flat kvs) bs) (hb : b.Inside pre.length)
    (hok : bodyLoop (pre ++ (bs ++ rest)) kvs.length pre.length b = .ok (b', q)) :
    b'.bitmap = ((mapKeys kvs).map (· % 2 ^ 32)).foldl setBit b.bitmap ∧
      b'.Inside (pre ++ bs).length := by
  induction kvs generalizing pre bs b with
  | nil =>
    cases henc
    simp only [List.length_nil, bodyLoop, Outcome.ok.injEq, Prod.mk.injEq] at hok
    obtain ⟨rfl, -⟩ := hok
    exact ⟨rfl, by rwa [List.append_nil]⟩
  | cons kv kvs ih =>
    obtain ⟨k, v⟩ := kv
    obtain ⟨kb, c, rfl, hk, henc'⟩ := henc.cons_cases
    obtain ⟨vb, bs', rfl, hv, hkvs⟩ := henc'.cons_cases
    have hmem : pre ++ (kb ++ (vb ++ bs') ++ rest) = pre ++ (kb ++ (vb ++ (bs' ++ rest))) := by
      simp only [List.append_assoc]
    rw [hmem, List.length_cons] at hok
    by_cases hty : k.ty = .uint
    · obtain ⟨num, rfl⟩ := Value.eq_uint_of_ty hty
      by_cases href : RefusedPair (.uint num, v)
      · rw [bodyLoop_refuses hk hv _ _ _ _ href] at hok
        cases hok
      · rw [bodyLoop_takes hk hv _ _ _ _ rfl href] at hok
        -- the pair lies behind what has been noted
        have hnoted : Body.Inside
            { b.put (num % 2 ^ 32) v (pre ++ kb).length (pre ++ kb ++ vb).length with
              bitmap := setBit b.bitmap (num % 2 ^ 32) } (pre ++ kb ++ vb).length :=
          hb.put (num % 2 ^ 32) v (by simp) (by simp)
        obtain ⟨hbits, hin⟩ := ih hkvs hnoted hok
        refine ⟨hbits, ?_⟩
        simpa only [List.append_assoc] using hin
    · rw [bodyLoop_other hk _ _ _ _ hty] at hok
      cases hok

/-! ## §3 — the parsers on any string.

A string begins with a map or it does not, and `mp_check` tells. -/

/-- **What a parser finds in front of a string**: nothing it goes on with, or a map. -/
theorem front_cases (buf : Bytes) :
    ((mpCheck buf = none ∨ ∃ k, mpCheck buf = some k ∧ expectType buf 0 .map = .fail) ∧
        ∀ kvs rest, decodeFront buf ≠ some (.map kvs, rest)) ∨
      ∃ head kvs bs rest k, buf = head ++ (bs ++ rest) ∧ EncodesAll (flat kvs) bs ∧
        decodeFront buf = some (.map kvs, rest) ∧ mpCheck buf = some k ∧
        expectType buf 0 .map = .ok () ∧ decodeMapAt buf 0 = .ok (kvs.length, head.length) := by
  cases hcheck : mpCheck buf with
  | none =>
    refine .inl ⟨.inl rfl, ?_⟩
    intro kvs rest hdec
    obtain ⟨bs, rfl, henc⟩ := decodeFront_eq_some_iff.mp hdec
    rw [mpCheck_front henc rest] at hcheck
    cases hcheck
  | some k =>
    obtain ⟨v, bs, rest, rfl, henc, -⟩ := (mpCheck_iff _ _).mp hcheck
    have hfront := decodeFront_append henc rest
    have htype := expectType_eq henc [] rest .map
    by_cases hty : v.ty = .map
    · rw [if_pos hty] at htype
      obtain ⟨kvs, rfl⟩ := Value.eq_map_of_ty hty
      obtain ⟨b, l, ds, body, rfl, hlead, hl, hkvs⟩ := henc.map_cases
      have hmap : mpDecodeMap (b :: ds ++ body ++ rest) = some (kvs.length, 1 + ds.length) :=
        (mpDecodeMap_iff _ _ _).mpr ⟨b, l, ds, body ++ rest, by simp, hlead, hl, rfl⟩
      refine .inr ⟨b :: ds, kvs, body, rest, k, by simp, hkvs, hfront, rfl, htype, ?_⟩
      rw [decodeMapAt, List.drop_zero, hmap, List.length_cons, Nat.add_comm]
      simp [Outcome.ofReader]
    · rw [if_neg hty] at htype
      refine .inl ⟨.inr ⟨k, rfl, htype⟩, ?_⟩
      intro kvs rest' hdec
      -- a value of another type is in front
      rw [hfront] at hdec
      obtain ⟨rfl, -⟩ := Prod.mk.inj (Option.some.inj hdec)
      exact hty rfl

/-- The header loop is defined on all pairs: it looks before it decodes. -/
theorem hdrLoop_defined {kvs : List (Value × Value)} {pre bs rest : Bytes} {h : Hdr}
    (henc : EncodesAll (flat kvs) bs) :
    hdrLoop (pre ++ (bs ++ rest)) kvs.length pre.length h ≠ .undef := by
  induction kvs generalizing pre bs h with
  | nil => simp [hdrLoop]
  | cons kv kvs ih =>
    obtain ⟨k, v⟩ := kv
    obtain ⟨kb, c, rfl, hk, henc'⟩ := henc.cons_cases
    obtain ⟨vb, bs', rfl, hv, hkvs⟩ := henc'.cons_cases
    have hmem : pre ++ (kb ++ (vb ++ bs') ++ rest) = pre ++ (kb ++ (vb ++ (bs' ++ rest))) := by
      simp only [List.append_assoc]
    have hmem' : pre ++ (kb ++ (vb ++ (bs' ++ rest))) = (pre ++ kb) ++ (vb ++ (bs' ++ rest)) := by
      simp only [List.append_assoc]
    have hmem'' : pre ++ (kb ++ (vb ++ (bs' ++ rest))) = (pre ++ kb ++ vb) ++ (bs' ++ rest) := by
      simp only [List.append_assoc]
    have htypeK := expectType_eq hk pre (vb ++ (bs' ++ rest)) .uint
    have htypeV := expectType_eq hv (pre ++ kb) (bs' ++ rest) .uint
    rw [← hmem'] at htypeV
    rw [hmem, List.length_cons]
    by_cases hkty : k.ty = .uint
    swap
    · simp [hdrLoop, htypeK, hkty]
    rw [if_pos hkty] at htypeK
    obtain ⟨num, rfl⟩ := Value.eq_uint_of_ty hkty
    by_cases hvty : v.ty = .uint
    swap
    · rw [if_neg hvty] at htypeV
      simp only [hdrLoop, htypeK, decodeUintAt_front pre _ hk, Outcome.ok_bind, htypeV,
        Outcome.fail_bind]
      simp
    rw [if_pos hvty] at htypeV
    obtain ⟨val, rfl⟩ := Value.eq_uint_of_ty hvty
    have hdec := decodeUintAt_front (pre ++ kb) (bs' ++ rest) hv
    rw [← hmem'] at hdec
    -- whichever key it is, the loop goes on behind the number
    have hgo : ∀ h₁, hdrLoop (pre ++ (kb ++ (vb ++ (bs' ++ rest)))) kvs.length
        (pre ++ kb ++ vb).length h₁ ≠ .undef := by
      intro h₁
      rw [hmem'']
      exact ih hkvs
    simp only [hdrLoop, htypeK, decodeUintAt_front pre _ hk, Outcome.ok_bind, htypeV, hdec]
    split_ifs
    · exact hgo _
    · exact hgo _
    · exact hgo _
    · simp

/-- **`tnt_reply_hdr0` is defined on every string.**  It looks at every type before it decodes, and
`mp_check` has seen the whole map. -/
theorem tntReplyHdr0_defined (buf : Bytes) : tntReplyHdr0 buf ≠ .undef := by
  rcases front_cases buf with ⟨hno | ⟨k, hcheck, htype⟩, -⟩ |
    ⟨head, kvs, bs, rest, k, rfl, henc, -, hcheck, htype, hmap⟩
  · simp [tntReplyHdr0, hno]
  · simp [tntReplyHdr0, hcheck, htype]
  · simp only [tntReplyHdr0, hcheck, htype, hmap, Outcome.ok_bind]
    exact hdrLoop_defined henc

/-- `tnt_reply_body0` refuses what is no map, and is its loop on a map. -/
theorem tntReplyBody0_cases (buf : Bytes) :
    (tntReplyBody0 buf = .fail ∧ ∀ kvs rest, decodeFront buf ≠ some (.map kvs, rest)) ∨
      ∃ head kvs bs rest, buf = head ++ (bs ++ rest) ∧ EncodesAll (flat kvs) bs ∧
        decodeFront buf = some (.map kvs, rest) ∧
        tntReplyBody0 buf = bodyLoop buf kvs.length head.length ⟨none, none, none, none, some 0⟩ := by
  rcases front_cases buf with ⟨hno | ⟨k, hcheck, htype⟩, hmap⟩ |
    ⟨head, kvs, bs, rest, k, heq, henc, hfront, hcheck, htype, hmap⟩
  · exact .inl ⟨by simp [tntReplyBody0, hno], hmap⟩
  · exact .inl ⟨by simp [tntReplyBody0, hcheck, htype], hmap⟩
  · refine .inr ⟨head, kvs, bs, rest, heq, henc, hfront, ?_⟩
    simp only [tntReplyBody0, hcheck, htype, hmap, Outcome.ok_bind]

/-- What is asked of `tnt_reply_body0` on a string: it ends normally or with an error, and its
pointers lead into the string. -/
def BodySafe (buf : Bytes) : Prop :=
  tntReplyBody0 buf ≠ .undef ∧ ∀ b q, tntReplyBody0 buf = .ok (b, q) → b.Inside buf.length

/-- If the string starts with a map, every key in it that is not a number stands behind a pair that
is refused. -/
def BodyClear (buf : Bytes) : Prop :=
  ∀ kvs rest, decodeFront buf = some (.map kvs, rest) →
    ∀ l kv r, kvs = l ++ kv :: r → kv.1.ty ≠ .uint → ∃ p ∈ l, RefusedPair p

/-- **Where the parsers are defined.**  `tnt_reply_hdr0` is, on every string; `tnt_reply_body0`
stays inside the string and inside the contract of every decoder, and stores only pointers into the
string, exactly on the clear ones.  What `tnt_reply_body0` does not ask is the type of a key, so on
all other strings there is a key that is no number and that the loop comes to, and the decoder of
numbers is applied to it. -/
theorem tntReply_parsers_defined_iff (buf : Bytes) :
    tntReplyHdr0 buf ≠ .undef ∧ (BodySafe buf ↔ BodyClear buf) := by
  refine ⟨tntReplyHdr0_defined buf, ?_⟩
  rcases tntReplyBody0_cases buf with ⟨hfail, hno⟩ | ⟨head, kvs, bs, rest, heq, henc, hfront, hloop⟩
  · constructor
    · intro _ kvs rest hdec
      exact absurd hdec (hno kvs rest)
    · intro _
      exact ⟨by simp [hfail], by simp [hfail]⟩
  · have hiff := @bodyLoop_undef_iff _ kvs head bs rest ⟨none, none, none, none, some 0⟩ henc
    rw [← heq, ← hloop] at hiff
    constructor
    · rintro ⟨hdefined, -⟩ kvs' rest' hdec l kv r hkvs hty
      rw [hfront] at hdec
      obtain ⟨hval, -⟩ := Prod.mk.inj (Option.some.inj hdec)
      obtain rfl := Value.map.inj hval
      -- a key that is no number, behind pairs that are all taken, is decoded as one
      by_contra hnone
      refine hdefined (hiff.mpr ⟨l, kv, r, hkvs, hty, ?_⟩)
      intro p hp href
      exact hnone ⟨p, hp, href⟩
    · intro hclear
      refine ⟨?_, ?_⟩
      · intro hundef
        obtain ⟨l, kv, r, hkvs, hty, hall⟩ := hiff.mp hundef
        obtain ⟨p, hp, href⟩ := hclear kvs rest hfront l kv r hkvs hty
        exact hall p hp href
      · intro b q hok
        rw [hloop, heq] at hok
        have hnone : Body.Inside ⟨none, none, none, none, some 0⟩ head.length := by
          intro s hs
          simp [Body.spans] at hs
        intro s hs
        obtain ⟨horder, hlast⟩ := (bodyLoop_ok henc hnone hok).2 s hs
        refine ⟨horder, hlast.trans ?_⟩
        rw [heq]
        simp

end Parsers

/-- `{nil: 5}`: a complete map, whose key `mp_decode_uint` cannot decode. -/
theorem tntReplyBody0_nil_key :
    @tntReplyBody0 Msgpuck.reference [0x81, 0xc0, 0x05] = .undef ∧
      ¬ @BodySafe Msgpuck.reference [0x81, 0xc0, 0x05] := by
  have hundef : @tntReplyBody0 Msgpuck.reference [0x81, 0xc0, 0x05] = .undef := by decide +kernel
  exact ⟨hundef, fun hsafe => hsafe.1 hundef⟩

/-! ## §4 — the bitmap.

A fold over the keys as they are kept, once with shifts and once with sets; they agree as long as no
key is too large and none has been cut. -/

/-- A shift below 64 sets one bit. -/
theorem setBit_testBit (x : UInt64) {key : Nat} (hkey : key < 64) :
    ∃ y, setBit (some x) key = some y ∧
      ∀ k, (y.toNat.testBit k = true ↔ x.toNat.testBit k = true ∨ k = key) := by
  refine ⟨_, by rw [setBit, if_pos hkey]; rfl, ?_⟩
  intro k
  have hnum : (UInt64.ofNat key).toNat = key :=
    UInt64.toNat_ofNat_of_lt' (by show key < 2 ^ 64; omega)
  have hone : ((1 : UInt64) <<< UInt64.ofNat key).toNat = 2 ^ key := by
    have hlt : 2 ^ key < 2 ^ 64 := Nat.pow_lt_pow_right (by decide) hkey
    rw [UInt64.toNat_shiftLeft, hnum, Nat.mod_eq_of_lt hkey, UInt64.toNat_one, Nat.one_shiftLeft,
      Nat.mod_eq_of_lt hlt]
  rw [UInt64.toNat_or, hone, Nat.testBit_or, Bool.or_eq_true, Nat.testBit_two_pow,
    decide_eq_true_iff, eq_comm (a := key)]

/-- A bitmap that is lost stays lost. -/
theorem foldl_setBit_none (ks : List Nat) : ks.foldl setBit none = none := by
  induction ks with
  | nil => rfl
  | cons k ks ih =>
    have hstep : setBit none k = none := by
      unfold setBit
      split_ifs <;> rfl
    rw [List.foldl_cons, hstep, ih]

/-- **A bitmap of many shifts**: defined if all are below 64, and then exact. -/
theorem foldl_setBit_spec (ks : List Nat) (x : UInt64) :
    (∀ y, ks.foldl setBit (some x) = some y →
        (∀ k ∈ ks, k < 64) ∧
          ∀ k, (y.toNat.testBit k = true ↔ x.toNat.testBit k = true ∨ k ∈ ks)) ∧
      ((∀ k ∈ ks, k < 64) → ∃ y, ks.foldl setBit (some x) = some y) := by
  induction ks generalizing x with
  | nil =>
    refine ⟨?_, fun _ => ⟨x, rfl⟩⟩
    intro y hy
    obtain rfl := Option.some.inj hy
    exact ⟨by simp, by simp⟩
  | cons key ks ih =>
    by_cases hkey : key < 64
    · obtain ⟨z, hz, hbits⟩ := setBit_testBit x hkey
      obtain ⟨hspec, htotal⟩ := ih z
      rw [List.foldl_cons, hz]
      refine ⟨?_, ?_⟩
      · intro y hy
        obtain ⟨hlt, hy⟩ := hspec y hy
        refine ⟨?_, ?_⟩
        · intro k hk
          rcases List.mem_cons.mp hk with rfl | hk
          · exact hkey
          · exact hlt k hk
        · intro k
          rw [hy, hbits, List.mem_cons, or_assoc]
      · intro hall
        exact htotal fun k hk => hall k (by simp [hk])
    · -- a shift by 64 or more is undefined, and what follows cannot mend it
      have hnone : setBit (some x) key = none := by rw [setBit, if_neg hkey]
      rw [List.foldl_cons, hnone, foldl_setBit_none]
      refine ⟨by simp, ?_⟩
      intro hall
      exact absurd (hall key (by simp)) hkey

/-- The header's bitmap: the low 32 bits of its keys. -/
theorem record_bitmap (pairs : List WirePair) (h : Hdr) :
    (pairs.foldl Hdr.record h).bitmap =
      ((pairs.map WirePair.key).map (· % 2 ^ 32)).foldl setBit h.bitmap := by
  induction pairs generalizing h with
  | nil => rfl
  | cons w pairs ih =>
    have hstep : (h.record w).bitmap = setBit h.bitmap (w.key % 2 ^ 32) := by
      unfold Hdr.record
      split_ifs <;> rfl
    rw [List.foldl_cons, ih, hstep]
    rfl

/-- The keys of pairs on the wire are numbers. -/
theorem mapKeys_wire (pairs : List WirePair) :
    mapKeys (pairs.map fun w => (.uint w.key, w.val)) = pairs.map WirePair.key := by
  unfold mapKeys
  rw [List.filterMap_map]
  exact List.filterMap_eq_map' ▸ rfl

/-! The keys of a reply, as the format has them. -/

/-- The number in front of a buffer. -/
def announced (buf : Bytes) : Nat :=
  match readHeader leadUint buf with
  | some (n, _) => n
  | none => 0

/-- The bytes a reply announces. -/
def package (buf : Bytes) : Bytes := (buf.drop iprotoHdrSize).take (announced buf)

/-- The keys of the map in front of a string. -/
def frontKeys (mem : Bytes) : List Nat :=
  match decodeFront mem with
  | some (.map kvs, _) => mapKeys kvs
  | _ => []

/-- What stands behind the value in front of a string. -/
def behindFront (mem : Bytes) : Bytes :=
  match decodeFront mem with
  | some (_, rest) => rest
  | none => []

/-- The keys of the header of a reply, and those of its body. -/
def headerKeys (buf : Bytes) : List Nat := frontKeys (package buf)

def bodyKeys (buf : Bytes) : List Nat := frontKeys (behindFront (package buf))

/-- The number in front of a buffer is the one it announces. -/
theorem announced_eq {buf : Bytes} {n : Nat} (h : Announces buf n) : announced buf = n := by
  obtain ⟨k, hk⟩ := h
  have hread : readHeader leadUint buf = some (n, k) :=
    (readHeader_eq_some_iff fun x l => by cases x <;> simp [leadUint]).mpr hk
  rw [announced, hread]

section Bitmap

variable [Msgpuck]

/-- **What `tnt_reply0` accepts**: a complete package, with a header and nothing, or a header and a
body.  Whatever the bytes are; nothing is assumed of a server. -/
theorem tntReply0_accepts {r r' : TntReply} {buf : Bytes} {off : Option Nat}
    (h : tntReply0 r buf = some (0, r', off)) :
    ∃ hdr hdrLength, tntReplyHdr0 (package buf) = .ok (hdr, hdrLength) ∧
      ((package buf).length = hdrLength ∧ r' = r.setHdr hdr ∨
        ∃ base b q, tntReplyBody0 ((package buf).drop hdrLength) = .ok (b, q) ∧
          r' = (r.setHdr hdr).setBody base b) := by
  unfold tntReply0 at h
  cases hlen : tntReplyLen buf with
  | undef => simp [hlen] at h
  | fail => simp [hlen] at h
  | ok p =>
    obtain ⟨rv, length⟩ := p
    simp only [hlen] at h
    split_ifs at h with hrv hshort
    · simp at h
    -- the frame is complete, so its length is the announced one
    have hpackage : (buf.drop iprotoHdrSize).take (length - iprotoHdrSize) = package buf := by
      unfold tntReplyLen at hlen
      split_ifs at hlen with hsize
      · simp only [Outcome.ok.injEq, Prod.mk.injEq] at hlen
        exact absurd hlen.1.symm hrv
      simp only [Outcome.bind_eq_ok, Prod.exists] at hlen
      obtain ⟨⟨⟩, -, n, p, hdec, hlen⟩ := hlen
      have hann := decodeUintAt_eq_ok hdec
      split_ifs at hlen with hless
      · simp only [Outcome.ok.injEq, Prod.mk.injEq] at hlen
        exact absurd hlen.1.symm hrv
      · simp only [Outcome.ok.injEq, Prod.mk.injEq] at hlen
        obtain ⟨-, rfl⟩ := hlen
        have hn : n < 2 ^ 64 := by
          obtain ⟨_, b, l, ds, rest, -, hlead, hl, -⟩ := hann
          exact Len.Holds.uint_lt hlead hl
        have hsub : (n + iprotoHdrSize) % 2 ^ 64 - iprotoHdrSize = n := by
          rw [iprotoHdrSize] at hshort ⊢
          omega
        rw [package, announced_eq hann, hsub]
    rw [hpackage] at h
    cases hhdr : tntReplyHdr0 (package buf) with
    | undef => simp [hhdr] at h
    | fail => simp [hhdr] at h
    | ok p =>
      obtain ⟨hdr, hdrLength⟩ := p
      refine ⟨hdr, hdrLength, rfl, ?_⟩
      simp only [hhdr] at h
      split_ifs at h with hbody
      · cases hbody0 : tntReplyBody0 ((package buf).drop hdrLength) with
        | undef => simp [hbody0] at h
        | fail => simp [hbody0] at h
        | ok p =>
          obtain ⟨b, q⟩ := p
          simp only [hbody0, Option.some.injEq, Prod.mk.injEq, true_and] at h
          exact .inr ⟨_, b, q, rfl, h.1.symm⟩
      · simp only [Option.some.injEq, Prod.mk.injEq, true_and] at h
        exact .inl ⟨not_not.mp hbody, h.1.symm⟩

/-- The header of an accepted reply: its keys, its bits, and what stands behind it. -/
theorem tntReplyHdr0_keys {mem : Bytes} {hdr : Hdr} {q : Nat}
    (hok : tntReplyHdr0 mem = .ok (hdr, q)) :
    hdr.bitmap = ((frontKeys mem).map (· % 2 ^ 32)).foldl setBit (some 0) ∧
      (∀ k ∈ frontKeys mem, k % 2 ^ 32 < 64) ∧ mem.drop q = behindFront mem ∧ q ≤ mem.length := by
  obtain ⟨m, hm, rfl, rest, rfl⟩ := tntReplyHdr0_takes hok
  have hfront := decodeFront_append m.encodes rest
  have hkeys : frontKeys (m.bytes ++ rest) = m.pairs.map WirePair.key := by
    rw [frontKeys, hfront]
    exact mapKeys_wire m.pairs
  rw [tntReplyHdr0_fold hm rest] at hok
  simp only [Outcome.ok.injEq, Prod.mk.injEq, and_true] at hok
  refine ⟨?_, ?_, ?_, by simp⟩
  · rw [← hok, hkeys]
    exact record_bitmap m.pairs _
  · intro k hk
    rw [hkeys] at hk
    obtain ⟨w, hw, rfl⟩ := List.mem_map.mp hk
    rcases (hm w hw).1 with h | h | h
    · rw [h]; decide
    · rw [h]; decide
    · rw [h]; decide
  · rw [List.drop_left, behindFront, hfront]

/-- The body of an accepted reply. -/
theorem tntReplyBody0_keys {mem : Bytes} {b : Body} {q : Nat}
    (hok : tntReplyBody0 mem = .ok (b, q)) :
    b.bitmap = ((frontKeys mem).map (· % 2 ^ 32)).foldl setBit (some 0) := by
  rcases tntReplyBody0_cases mem with ⟨hfail, -⟩ | ⟨head, kvs, bs, rest, heq, henc, hfront, hloop⟩
  · rw [hfail] at hok
    cases hok
  · rw [hloop, heq] at hok
    have hnone : Body.Inside ⟨none, none, none, none, some 0⟩ head.length := by
      intro s hs
      simp [Body.spans] at hs
    have hbits := (bodyLoop_ok henc hnone hok).1
    rw [frontKeys, hfront]
    exact hbits

/-- What is asked of the bitmap: no shift went too far, and the bits are the keys below 64. -/
def BitmapExact (buf : Bytes) (r : TntReply) : Prop :=
  ∃ bitmap, r.bitmap = some bitmap ∧
    ∀ k < 64, (bitmap.toNat.testBit k = true ↔ k ∈ headerKeys buf ∨ k ∈ bodyKeys buf)

/-- The low 32 bits of every key of the body are below 64, and those of every key are a key of the
reply again (for a key below `2^32`, itself). -/
def KeysClear (buf : Bytes) : Prop :=
  (∀ k ∈ bodyKeys buf, k % 2 ^ 32 < 64) ∧
    ∀ k ∈ headerKeys buf ++ bodyKeys buf, k % 2 ^ 32 ∈ headerKeys buf ++ bodyKeys buf

/-- The bitmap of an accepted reply. -/
theorem tntReply0_bitmap {r r' : TntReply} {buf : Bytes} {off : Option Nat}
    (h : tntReply0 r buf = some (0, r', off)) :
    ∃ x, ((headerKeys buf).map (· % 2 ^ 32)).foldl setBit (some 0) = some x ∧
      r'.bitmap = (((bodyKeys buf).map (· % 2 ^ 32)).foldl setBit (some 0)).map (x ||| ·) := by
  obtain ⟨hdr, hdrLength, hhdr, hend⟩ := tntReply0_accepts h
  obtain ⟨hbits, hlow, hbehind, hle⟩ := tntReplyHdr0_keys hhdr
  obtain ⟨x, hx⟩ := (foldl_setBit_spec ((headerKeys buf).map (· % 2 ^ 32)) 0).2 (by
    intro k hk
    obtain ⟨j, hj, rfl⟩ := List.mem_map.mp hk
    exact hlow j hj)
  refine ⟨x, hx, ?_⟩
  have hhdrbits : hdr.bitmap = some x := hbits.trans hx
  rcases hend with ⟨hlen, rfl⟩ | ⟨base, b, q, hbody, rfl⟩
  · -- no body, no keys of a body
    have hnil : behindFront (package buf) = [] := by
      rw [← hbehind, ← hlen, List.drop_length]
    have hkeys : bodyKeys buf = [] := by
      rw [bodyKeys, hnil]
      rfl
    rw [hkeys]
    show hdr.bitmap = some (x ||| 0)
    rw [hhdrbits, UInt64.or_zero]
  · have hbody' := tntReplyBody0_keys hbody
    rw [hbehind] at hbody'
    show (hdr.bitmap.bind fun x => b.bitmap.map (x ||| ·)) = _
    rw [hhdrbits, hbody', Option.bind_some]
    rfl

/-- **When the bitmap of an accepted reply is well defined and exact.**  A key is
kept in 32 bits and the shift is by what is kept: that may be 64 or more, or the number of another
key.  Where neither happens a bit is set exactly if its key is there. -/
theorem tntReply0_bitmap_iff {r r' : TntReply} {buf : Bytes} {off : Option Nat}
    (h : tntReply0 r buf = some (0, r', off)) : BitmapExact buf r' ↔ KeysClear buf := by
  obtain ⟨x, hx, hbitmap⟩ := tntReply0_bitmap h
  obtain ⟨hlowH, hbitsH⟩ := (foldl_setBit_spec _ 0).1 x hx
  have hmemH : ∀ k, x.toNat.testBit k = true ↔ ∃ j ∈ headerKeys buf, j % 2 ^ 32 = k := by
    intro k
    rw [hbitsH, List.mem_map]
    simp
  obtain ⟨hspec, htotal⟩ := foldl_setBit_spec ((bodyKeys buf).map (· % 2 ^ 32)) 0
  -- with every shift of the body below 64, bit `k` says that some key is `k` modulo `2^32`
  have hexact : ∀ y, ((bodyKeys buf).map (· % 2 ^ 32)).foldl setBit (some 0) = some y →
      ∀ k, (x ||| y).toNat.testBit k = true ↔
        ∃ j ∈ headerKeys buf ++ bodyKeys buf, j % 2 ^ 32 = k := by
    intro y hy k
    have hbitsB := (hspec y hy).2 k
    rw [UInt64.toNat_or, Nat.testBit_or, Bool.or_eq_true, hmemH, hbitsB, List.mem_map]
    simp only [UInt64.toNat_zero, Nat.zero_testBit, Bool.false_eq_true, false_or, List.mem_append]
    constructor
    · rintro (⟨j, hj, hk⟩ | ⟨j, hj, hk⟩)
      · exact ⟨j, .inl hj, hk⟩
      · exact ⟨j, .inr hj, hk⟩
    · rintro ⟨j, hj | hj, hk⟩
      · exact .inl ⟨j, hj, hk⟩
      · exact .inr ⟨j, hj, hk⟩
  constructor
  · rintro ⟨bitmap, hr, hbits⟩
    rw [hr] at hbitmap
    obtain ⟨y, hy, rfl⟩ := Option.map_eq_some_iff.mp hbitmap.symm
    have hlowB : ∀ k ∈ bodyKeys buf, k % 2 ^ 32 < 64 := by
      intro k hk
      exact (hspec y hy).1 _ (List.mem_map.mpr ⟨k, hk, rfl⟩)
    refine ⟨hlowB, ?_⟩
    intro k hk
    have hlt : k % 2 ^ 32 < 64 := by
      rcases List.mem_append.mp hk with hk | hk
      · exact hlowH _ (List.mem_map.mpr ⟨k, hk, rfl⟩)
      · exact hlowB k hk
    have hset := (hexact y hy (k % 2 ^ 32)).mpr ⟨k, hk, rfl⟩
    exact List.mem_append.mpr ((hbits _ hlt).mp hset)
  · rintro ⟨hlowB, hself⟩
    obtain ⟨y, hy⟩ := htotal (by
      intro k hk
      obtain ⟨j, hj, rfl⟩ := List.mem_map.mp hk
      exact hlowB j hj)
    refine ⟨x ||| y, by rw [hbitmap, hy]; rfl, ?_⟩
    intro k hk
    rw [hexact y hy k, ← List.mem_append]
    constructor
    · rintro ⟨j, hj, rfl⟩
      exact hself j hj
    · intro hmem
      exact ⟨k, hmem, Nat.mod_eq_of_lt (by omega)⟩

end Bitmap

/-- `{TNT_SYNC: 7, TNT_CODE: 0}` and `{TNT_DATA: []}`. -/
def dataReply : Bytes :=
  [0xce, 0, 0, 0, 0x08, 0x82, 0x01, 0x07, 0x00, 0x00, 0x81, 0x30, 0x90]

/-- A reply with an empty array as its data. -/
theorem tntReply0_bitmap_data :
    ∃ r off, @tntReply0 Msgpuck.reference zeroReply dataReply = some (0, r, off) ∧
      BitmapExact dataReply r := by
  have hreply : @tntReply0 Msgpuck.reference zeroReply dataReply =
      some (0, { zeroReply with bitmap := some 0x1000000000003, sync := 7, data := some ⟨12, 13⟩ },
        some 13) := by
    decide +kernel
  refine ⟨_, _, hreply, ?_⟩
  refine (@tntReply0_bitmap_iff Msgpuck.reference zeroReply _ dataReply (some 13) hreply).mpr ?_
  unfold KeysClear
  decide +kernel

/-- The same header and `{TNT_SQL_INFO: {}}`: the body of a reply to an SQL statement.  `1ULL` is
shifted by 66. -/
theorem tntReply0_bitmap_sql_info :
    ∃ r off, @tntReply0 Msgpuck.reference zeroReply
        [0xce, 0, 0, 0, 0x08, 0x82, 0x01, 0x07, 0x00, 0x00, 0x81, 0x42, 0x80] = some (0, r, off) ∧
      r.bitmap = none ∧
      ¬ BitmapExact [0xce, 0, 0, 0, 0x08, 0x82, 0x01, 0x07, 0x00, 0x00, 0x81, 0x42, 0x80] r := by
  refine ⟨{ zeroReply with bitmap := none, sync := 7, sqlinfo := some ⟨12, 13⟩ }, some 13,
    by decide +kernel, rfl, ?_⟩
  rintro ⟨bitmap, hbitmap, -⟩
  cases hbitmap

end TarantoolC.Reply
