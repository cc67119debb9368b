/-
# TarantoolC.Reply.Length — the length prefix of a reply, read from UNTRUSTED bytes.

A server writes the prefix as `ce` and four bytes, and `tnt_reply_len` waits for these five bytes
before it looks at them.  What it looks at them with is `mp_decode_uint`, whose width is chosen by
the first byte: one, two, three or five bytes — or nine, if the first byte is `cf`.  Nine bytes need
not be there, and the number in them may be so large that adding five to it wraps around.
`tnt_reply_from` reads the same number from an array of five.

`tntReplyLen_safe_iff` says that `cf` is the only way to go wrong, and when it does.

Five bytes are looked at, and the first of them decides.  From `00` to `7f` it is the number itself;
`cc`, `cd` and `ce` announce one, two and four bytes more, which are there; `cf` announces eight.
All other first bytes are refused by the type test before anything is decoded, also `c1`, which
msgpuck counts among the extensions (`NeverIsExt`).

In `tnt_reply_from` the five bytes are all there is, so with `cf` the decoder reads four bytes
behind the array, whatever follows on the stream.  In `tnt_reply_len`, and in the functions that
call it, the buffer may be long enough; then the sum `length + 5` may wrap around, in 64 bits, and
the announced length is believed.
-/
import TarantoolC.Reply.Copy

namespace TarantoolC.Reply

open MsgPack Msgpuck Proto

/-! ## §1 — the lead bytes of a number.

By evaluation over the 256 lead bytes: a number has one byte, two, three, five, or nine. -/

/-- How wide a number is: in its lead byte, in up to four bytes behind it, or in the eight bytes
behind `cf`. -/
theorem lead_uint_cases {b : UInt8} {l : Len} (h : lead b = .uint l) :
    (∃ n, l = .fix n ∧ n < 2 ^ 7 ∧ b ≠ 0xcf) ∨ (∃ k, l = .wide k ∧ k ≤ 4 ∧ b ≠ 0xcf) ∨
      (l = .wide 8 ∧ b = 0xcf) := by
  unfold lead at h
  dsimp only at h
  split_ifs at h with hfix
  · cases h
    exact .inl ⟨_, rfl, hfix, by rintro rfl; exact absurd hfix (by decide)⟩
  · split at h <;> cases h
    all_goals next hb =>
      first
        | exact .inr (.inr ⟨rfl, UInt8.toNat_inj.mp hb⟩)
        | exact .inr (.inl ⟨_, rfl, by decide, by rintro rfl; exact absurd hb (by decide)⟩)

/-- A number on the wire has at most 64 bits. -/
theorem Len.Holds.uint_lt {b : UInt8} {l : Len} {n : Nat} {ds : Bytes} (h : lead b = .uint l)
    (hl : l.Holds n ds) : n < 2 ^ 64 := by
  have hwide : ∀ k ≤ 8, l = .wide k → n < 2 ^ 64 := by
    rintro k hk rfl
    obtain ⟨hds, rfl⟩ := hl
    have hlt := beNat_lt ds
    have hpow : 256 ^ ds.length ≤ 256 ^ 8 := Nat.pow_le_pow_right (by decide) (by omega)
    omega
  rcases lead_uint_cases h with ⟨m, rfl, hm, -⟩ | ⟨k, hk, hle, -⟩ | ⟨hk, -⟩
  · obtain ⟨rfl, -⟩ := hl
    omega
  · exact hwide k (by omega) hk
  · exact hwide 8 (Nat.le_refl _) hk

/-- Only one byte announces nothing. -/
theorem lead_never {b : UInt8} (h : (lead b).ty = none) : b = 0xc1 := by
  have hlead : lead b = .never := by
    cases hb : lead b <;> simp_all [Lead.ty]
  unfold lead at hlead
  dsimp only at hlead
  split_ifs at hlead with h80 h90 ha0 hc0 he0
  split at hlead <;> try cases hlead
  -- every other byte between `c0` and `df` has a row of its own
  apply UInt8.toNat_inj.mp
  show b.toNat = 0xc1
  have hrange : 0xc0 ≤ b.toNat ∧ b.toNat < 0xe0 := ⟨by omega, by omega⟩
  grind

section Length

variable [Msgpuck]

/-- msgpuck counts the byte that announces nothing among the extensions. -/
def NeverIsExt : Prop := mpTypeof 0xc1 = .ext

/-- The first bytes that are taken for a number. -/
theorem mpTypeof_uint_iff (hnever : NeverIsExt) (b : UInt8) :
    mpTypeof b = .uint ↔ ∃ l, lead b = .uint l := by
  constructor
  · intro htype
    cases hty : (lead b).ty with
    | none =>
      rw [lead_never hty, hnever] at htype
      cases htype
    | some t =>
      rw [mpTypeof_eq b t hty] at htype
      subst htype
      cases hlead : lead b with
      | uint l => exact ⟨l, rfl⟩
      | _ => simp [hlead, Lead.ty] at hty
  · rintro ⟨l, hlead⟩
    exact mpTypeof_eq b .uint (by rw [hlead]; rfl)

/-! ## §2 — the number in front of a buffer.

What a buffer announces, if all bytes of the number are there. -/

/-- The buffer starts with a number, the announced length. -/
def Announces (buf : Bytes) (n : Nat) : Prop := ∃ k, Header .uint buf n k

omit [Msgpuck] in
/-- A buffer announces one number. -/
theorem Announces.unique {buf : Bytes} {n m : Nat} (h : Announces buf n) (h' : Announces buf m) :
    n = m := by
  obtain ⟨_, b, l, ds, rest, rfl, hlead, hl, -⟩ := h
  obtain ⟨_, b', l', ds', rest', heq, hlead', hl', -⟩ := h'
  obtain ⟨rfl, htail⟩ := List.cons.inj heq
  rw [hlead] at hlead'
  obtain rfl := Lead.uint.inj hlead'
  exact (hl.unique hl' htail).1

/-- Whatever `mp_decode_uint` reads is what the buffer announces. -/
theorem decodeUintAt_eq_ok {buf : Bytes} {n p : Nat} (h : decodeUintAt buf 0 = .ok (n, p)) :
    Announces buf n := by
  rw [decodeUintAt, List.drop_zero] at h
  cases hdec : mpDecodeUint buf with
  | none => simp [hdec, Outcome.ofReader] at h
  | some r =>
    obtain ⟨m, k⟩ := r
    simp only [hdec, Option.map_some, Outcome.ofReader, Outcome.ok.injEq, Prod.mk.injEq] at h
    obtain ⟨rfl, -⟩ := h
    exact ⟨k, (mpDecodeUint_iff _ _ _).mp hdec⟩

/-- A number that is there is read. -/
theorem Announces.decode {buf : Bytes} {n : Nat} (h : Announces buf n) :
    ∃ p, decodeUintAt buf 0 = .ok (n, p) := by
  obtain ⟨k, hk⟩ := h
  refine ⟨0 + k, ?_⟩
  rw [decodeUintAt, List.drop_zero, (mpDecodeUint_iff _ _ _).mpr hk]
  rfl

/-- A number that is not all there is read beyond the end. -/
theorem decodeUintAt_eq_undef {buf : Bytes} (h : ∀ n, ¬ Announces buf n) :
    decodeUintAt buf 0 = .undef := by
  rw [decodeUintAt, List.drop_zero]
  cases hdec : mpDecodeUint buf with
  | none => rfl
  | some r => exact absurd ⟨r.2, (mpDecodeUint_iff _ _ _).mp hdec⟩ (h r.1)

omit [Msgpuck] in
/-- Five bytes hold every number but those behind `cf`, and it is a 32-bit number. -/
theorem announces_short {b : UInt8} {l : Len} {rest : Bytes} (hlead : lead b = .uint l)
    (hb : b ≠ 0xcf) (hlen : 4 ≤ rest.length) :
    ∃ n, Announces (b :: rest) n ∧ n < 2 ^ 32 := by
  rcases lead_uint_cases hlead with ⟨n, rfl, hn, -⟩ | ⟨k, rfl, hk, -⟩ | ⟨-, heq⟩
  · exact ⟨n, ⟨1, b, _, [], rest, rfl, hlead, ⟨rfl, rfl⟩, rfl⟩, by omega⟩
  · have htake : (rest.take k).length = k := List.length_take_of_le (by omega)
    refine ⟨beNat (rest.take k), ⟨1 + k, b, _, rest.take k, rest.drop k, ?_, hlead, ⟨htake, rfl⟩, ?_⟩,
      ?_⟩
    · rw [List.take_append_drop]
    · rw [htake]
    · have hlt := beNat_lt (rest.take k)
      have hpow : 256 ^ k ≤ 256 ^ 4 := Nat.pow_le_pow_right (by decide) hk
      rw [htake] at hlt
      omega
  · exact absurd heq hb

omit [Msgpuck] in
/-- Behind `cf` a number needs eight bytes. -/
theorem announces_long_iff {rest : Bytes} {n : Nat} :
    Announces (0xcf :: rest) n ↔ 8 ≤ rest.length ∧ n = beNat (rest.take 8) := by
  constructor
  · rintro ⟨_, b, l, ds, tail, heq, hlead, hl, -⟩
    obtain ⟨rfl, rfl⟩ := List.cons.inj heq
    obtain rfl : l = .wide 8 := (Lead.uint.inj hlead).symm
    obtain ⟨hds, rfl⟩ := hl
    refine ⟨by rw [List.length_append]; omega, ?_⟩
    rw [← hds, List.take_left]
  · rintro ⟨hlen, rfl⟩
    have htake : (rest.take 8).length = 8 := List.length_take_of_le hlen
    exact ⟨9, 0xcf, .wide 8, rest.take 8, rest.drop 8, by rw [List.take_append_drop], rfl,
      ⟨htake, rfl⟩, by rw [htake]⟩

/-! ## §3 — `tnt_reply_len`.

By the first byte.  Only with one of them are there more bytes to ask for than have been waited for. -/

/-- What is asked of `tnt_reply_len` on a buffer: it stays inside, its sum does not wrap around, and
a frame it reports is complete and as long as the prefix says. -/
structure LenSafe (buf : Bytes) : Prop where
  inside : tntReplyLen buf ≠ .undef
  no_wrap : iprotoHdrSize ≤ buf.length → ∀ n, Announces buf n → n + iprotoHdrSize < 2 ^ 64
  framed : ∀ len, tntReplyLen buf = .ok (0, len) → iprotoHdrSize ≤ len ∧ len ≤ buf.length ∧
    ∃ n, Announces buf n ∧ len = iprotoHdrSize + n

/-- The buffer does not start with `cf`, or with all the nine bytes of a number that leaves room for
the prefix; or it is too short to be looked at. -/
def LenClear (buf : Bytes) : Prop :=
  buf.length < iprotoHdrSize ∨ buf.head? ≠ some 0xcf ∨
    9 ≤ buf.length ∧ beNat ((buf.drop 1).take 8) + iprotoHdrSize < 2 ^ 64

/-- With a number in front, `tnt_reply_len` compares. -/
theorem tntReplyLen_announced {b : UInt8} {l : Len} {rest : Bytes} {n : Nat}
    (hlead : lead b = .uint l) (hlen : 4 ≤ rest.length) (hn : Announces (b :: rest) n) :
    tntReplyLen (b :: rest) =
      let total := (n + iprotoHdrSize) % 2 ^ 64
      if (b :: rest).length < total then .ok (1, total - (b :: rest).length) else .ok (0, total) := by
  obtain ⟨p, hdec⟩ := hn.decode
  have htype : expectType (b :: rest) 0 .uint = .ok () := by
    have hty : mpTypeof b = .uint := mpTypeof_eq b .uint (by rw [hlead]; rfl)
    simp [expectType, typeAt, Outcome.ofReader, hty]
  have hsize : ¬ (b :: rest).length < iprotoHdrSize := by
    rw [List.length_cons, iprotoHdrSize]
    omega
  rw [tntReplyLen, if_neg hsize]
  simp only [htype, hdec, Outcome.ok_bind]

/-- A number that leaves room for the prefix makes the length safe. -/
theorem lenSafe_of_announced {b : UInt8} {l : Len} {rest : Bytes} {n : Nat}
    (hlead : lead b = .uint l) (hlen : 4 ≤ rest.length) (hn : Announces (b :: rest) n)
    (hroom : n + iprotoHdrSize < 2 ^ 64) : LenSafe (b :: rest) := by
  have heq := tntReplyLen_announced hlead hlen hn
  simp only [Nat.mod_eq_of_lt hroom] at heq
  refine ⟨?_, ?_, ?_⟩
  · rw [heq]
    split_ifs <;> simp
  · intro _ m hm
    rwa [hm.unique hn]
  · intro len hok
    rw [heq] at hok
    split_ifs at hok with hless
    · simp at hok
    · obtain rfl : n + iprotoHdrSize = len := by simpa using hok
      exact ⟨Nat.le_add_left _ _, by omega, n, hn, Nat.add_comm _ _⟩

/-- Where no number starts, `tnt_reply_len` refuses. -/
theorem lenSafe_of_refused (hnever : NeverIsExt) {b : UInt8} {rest : Bytes}
    (hlead : ∀ l, lead b ≠ .uint l) (hlen : 4 ≤ rest.length) : LenSafe (b :: rest) := by
  have hty : mpTypeof b ≠ .uint := by
    intro h
    obtain ⟨l, hl⟩ := (mpTypeof_uint_iff hnever b).mp h
    exact hlead l hl
  have hsize : ¬ (b :: rest).length < iprotoHdrSize := by
    rw [List.length_cons, iprotoHdrSize]
    omega
  have hfail : tntReplyLen (b :: rest) = .fail := by
    rw [tntReplyLen, if_neg hsize]
    simp [expectType, typeAt, Outcome.ofReader, hty]
  refine ⟨by rw [hfail]; simp, ?_, by rw [hfail]; simp⟩
  rintro _ n ⟨_, b', l, ds, tail, heq, hl, -⟩
  obtain ⟨rfl, -⟩ := List.cons.inj heq
  exact absurd hl (hlead l)

/-- **`tnt_reply_len` is safe exactly on clear buffers.** -/
theorem lenSafe_iff (hnever : NeverIsExt) (buf : Bytes) : LenSafe buf ↔ LenClear buf := by
  by_cases hshort : buf.length < iprotoHdrSize
  · -- too short: the prefix is not looked at
    have heq : tntReplyLen buf = .ok (1, iprotoHdrSize - buf.length) := by
      rw [tntReplyLen, if_pos hshort]
    refine ⟨fun _ => .inl hshort, fun _ => ⟨by rw [heq]; simp, ?_, by rw [heq]; simp⟩⟩
    intro hge
    omega
  · obtain ⟨b, rest, rfl⟩ : ∃ b rest, buf = b :: rest := by
      cases buf with
      | nil => exact absurd (by decide) hshort
      | cons b rest => exact ⟨b, rest, rfl⟩
    have hlen : 4 ≤ rest.length := by
      rw [List.length_cons, iprotoHdrSize] at hshort
      omega
    by_cases hcf : b = 0xcf
    · subst hcf
      have hlead : lead 0xcf = .uint (.wide 8) := rfl
      have hclear : LenClear (0xcf :: rest) ↔
          8 ≤ rest.length ∧ beNat (rest.take 8) + iprotoHdrSize < 2 ^ 64 := by
        have hlong : ¬ rest.length + 1 < iprotoHdrSize := hshort
        simp only [LenClear, List.head?_cons, ne_eq, not_true_eq_false, false_or, List.length_cons,
          List.drop_one, List.tail_cons, hlong]
        omega
      rw [hclear]
      constructor
      · intro hsafe
        by_cases h8 : 8 ≤ rest.length
        · exact ⟨h8, hsafe.no_wrap (by omega) _ (announces_long_iff.mpr ⟨h8, rfl⟩)⟩
        · -- the eight bytes are not there
          have hundef : decodeUintAt (0xcf :: rest) 0 = .undef := by
            apply decodeUintAt_eq_undef
            intro n hn
            exact h8 (announces_long_iff.mp hn).1
          have hty : mpTypeof 0xcf = .uint := mpTypeof_eq _ _ rfl
          refine absurd ?_ hsafe.inside
          rw [tntReplyLen, if_neg hshort]
          simp [expectType, typeAt, Outcome.ofReader, hty, hundef]
      · rintro ⟨h8, hroom⟩
        exact lenSafe_of_announced hlead hlen (announces_long_iff.mpr ⟨h8, rfl⟩) hroom
    · have hclear : LenClear (b :: rest) := .inr (.inl (by simpa using hcf))
      refine ⟨fun _ => hclear, fun _ => ?_⟩
      by_cases huint : ∃ l, lead b = .uint l
      · obtain ⟨l, hlead⟩ := huint
        obtain ⟨n, hn, hlt⟩ := announces_short hlead hcf hlen
        exact lenSafe_of_announced hlead hlen hn (by rw [iprotoHdrSize]; omega)
      · exact lenSafe_of_refused hnever (fun l hl => huint ⟨l, hl⟩) hlen

/-! ## §4 — `tnt_reply_from`, and the functions that measure first.

The same number in an array of five, and the two functions whose first step is to measure. -/

/-- The five bytes a receive function delivers are enough for the length: with these bytes
`tnt_reply_from` gets as far as the allocation (which is refused here, so that nothing behind it
matters). -/
def FromSafe (five : Bytes) : Prop :=
  ∀ (σ : Type) (rcv : σ → Nat → Option (Int × Bytes × σ)) (s s₁ : σ) (rc : Int),
    rcv s iprotoHdrSize = some (rc, five, s₁) → rc ≠ -1 →
      tntReplyFrom (fun _ => false) rcv s ≠ none

/-- `tnt_reply_from` up to the allocation. -/
theorem tntReplyFrom_refused {σ : Type} {rcv : σ → Nat → Option (Int × Bytes × σ)} {s s₁ : σ}
    {rc : Int} {five : Bytes} (hrcv : rcv s iprotoHdrSize = some (rc, five, s₁)) (hrc : rc ≠ -1) :
    tntReplyFrom (fun _ => false) rcv s =
      match (do expectType five 0 .uint; decodeUintAt five 0 : Outcome (Nat × Nat)) with
      | .undef => none
      | _ => some (-1, zeroReply, s₁) := by
  simp only [tntReplyFrom, hrcv, bind, Option.bind_some, if_neg hrc, pure, Bool.not_false, if_true]
  split <;> simp_all

/-- **`tnt_reply_from` stays inside its array exactly if the first byte is not `cf`.** -/
theorem fromSafe_iff (hnever : NeverIsExt) {five : Bytes} (hfive : five.length = iprotoHdrSize) :
    FromSafe five ↔ five.head? ≠ some 0xcf := by
  obtain ⟨b, rest, rfl⟩ : ∃ b rest, five = b :: rest := by
    cases five with
    | nil => cases hfive
    | cons b rest => exact ⟨b, rest, rfl⟩
  have hlen : rest.length = 4 := by simpa [iprotoHdrSize] using hfive
  constructor
  · rintro hsafe heq
    obtain rfl : b = 0xcf := by simpa using heq
    have hundef : decodeUintAt (0xcf :: rest) 0 = .undef := by
      apply decodeUintAt_eq_undef
      intro n hn
      have h8 := (announces_long_iff.mp hn).1
      omega
    have hty : mpTypeof 0xcf = .uint := mpTypeof_eq _ _ rfl
    -- a receive function that delivers these bytes
    set rcv : Unit → Nat → Option (Int × Bytes × Unit) := fun _ _ => some (0, 0xcf :: rest, ())
    have hrcv : rcv () iprotoHdrSize = some (0, 0xcf :: rest, ()) := rfl
    refine hsafe Unit rcv () () 0 hrcv (by decide) ?_
    rw [tntReplyFrom_refused hrcv (by decide)]
    simp [expectType, typeAt, Outcome.ofReader, hty, hundef]
  · intro hne σ rcv s s₁ rc hrcv hrc
    have hcf : b ≠ 0xcf := by simpa using hne
    rw [tntReplyFrom_refused hrcv hrc]
    by_cases huint : ∃ l, lead b = .uint l
    · obtain ⟨l, hlead⟩ := huint
      obtain ⟨n, hn, -⟩ := announces_short hlead hcf hlen.ge
      obtain ⟨p, hdec⟩ := hn.decode
      have hty : mpTypeof b = .uint := mpTypeof_eq b .uint (by rw [hlead]; rfl)
      simp [expectType, typeAt, Outcome.ofReader, hty, hdec]
    · have hty : mpTypeof b ≠ .uint := by
        intro h
        exact huint ((mpTypeof_uint_iff hnever b).mp h)
      simp [expectType, typeAt, Outcome.ofReader, hty]

/-- **Where the length of a reply is read safely.**  `tnt_reply_len` stays inside the buffer, does
not wrap around and reports complete frames of the announced length exactly on the clear buffers; on
the others that it reads beyond, so do `tnt_reply` and `tnt_reply0`.  `tnt_reply_from` stays inside
its array of five exactly if the first byte it receives is not `cf`.  Five bytes are waited for, and
a `cf` in front of them announces eight: these need not be there, and the number in them may wrap
around when five is added.  No other first byte does any harm. -/
theorem tntReplyLen_safe_iff (hnever : NeverIsExt) :
    (∀ buf, (LenSafe buf ↔ LenClear buf) ∧
      (tntReplyLen buf = .undef →
        ∀ alloc r, tntReply alloc r buf = none ∧ tntReply0 r buf = none)) ∧
      ∀ five, five.length = iprotoHdrSize → (FromSafe five ↔ five.head? ≠ some 0xcf) := by
  refine ⟨?_, fun five hfive => fromSafe_iff hnever hfive⟩
  intro buf
  refine ⟨lenSafe_iff hnever buf, ?_⟩
  intro hundef alloc r
  rw [tntReply, tntReply0, hundef]
  exact ⟨rfl, rfl⟩

end Length

/-- A length of five bytes, as servers send it. -/
theorem tntReplyLen_safe_five :
    @LenSafe Msgpuck.reference [0xce, 0, 0, 0, 0x0c] ∧
      @FromSafe Msgpuck.reference [0xce, 0, 0, 0, 0x0c] := by
  obtain ⟨hlen, hfrom⟩ := @tntReplyLen_safe_iff Msgpuck.reference rfl
  exact ⟨(hlen _).1.mpr (.inr (.inl (by decide))), (hfrom _ rfl).mpr (by decide)⟩

/-- Five bytes that announce a number of nine: `tnt_reply_len` reads four bytes beyond the buffer
and `tnt_reply_from` beyond its array.  Nine bytes that announce `2^64 - 1`: the sum wraps around,
and a frame of four bytes is reported. -/
theorem tntReplyLen_reads_beyond :
    @tntReplyLen Msgpuck.reference [0xcf, 0, 0, 0, 0] = .undef ∧
      ¬ @LenSafe Msgpuck.reference [0xcf, 0, 0, 0, 0] ∧
      ¬ @FromSafe Msgpuck.reference [0xcf, 0, 0, 0, 0] ∧
      @tntReplyLen Msgpuck.reference
        [0xcf, 0xff, 0xff, 0xff, 0xff, 0xff, 0xff, 0xff, 0xff] = .ok (0, 4) := by
  let _ := Msgpuck.reference
  have hundef : tntReplyLen [0xcf, 0, 0, 0, 0] = .undef := by decide +kernel
  refine ⟨hundef, fun hsafe => hsafe.inside hundef, ?_, by decide +kernel⟩
  intro hsafe
  exact (fromSafe_iff rfl rfl).mp hsafe rfl

end TarantoolC.Reply
