/-
# TarantoolC.MsgPack.Decode — a decoder that is SOUND and COMPLETE for the format, and what follows.

`decode` reads one value off the front of a byte string.  It runs on fuel; every value takes at
least one byte, so twice the length of the string (plus one) is always enough and `decodeFront`
needs no bound from its caller.  The two directions

* `decode_sound` — what it returns, the format relates to the bytes it consumed;
* `decode_complete` — every encoding in front of a string is read back, exactly;

make `Encodes` unambiguous (`Encodes.unique`): a string starts with at most one encoding, of at most
one value.

How the proof of soundness is laid out.  The readers of a part of a value each get an inversion
lemma that says what they took off the string (`splitFront_eq_some` for bytes, `readLen_eq_some` for
a length), and so does each way in which the lead bytes use them: `fixed_eq_some` (numbers of a
fixed width), `text_eq_some` (strings behind a length), `ext_eq_some`, `container_eq_some` (values
behind a count).  A step of `decode` is then one case for each lead byte, and `reads` is the
induction on the fuel, for `decode` and `decodeAll` at once.

Completeness goes the other way, by recursion over the derivation of `Encodes`: the readers give
back what stands in front (`splitFront_append`, `readLen_append`).

The last part is what the models of C code use.  A cursor in C does not see a value but a position,
so `Front` says which value stands there and how long it is, and `Header` the same of the header
alone; both are decided by functions (`frontLength`, `readHeader`).
-/
import TarantoolC.MsgPack.Format

namespace TarantoolC.MsgPack

/-! ## §1 — the decoder. -/

/-- Split `n` bytes off the front, if there are that many. -/
def splitFront (n : Nat) (mem : Bytes) : Option (Bytes × Bytes) :=
  if n ≤ mem.length then some (mem.take n, mem.drop n) else none

/-- Read the number that a length rule promises after the lead byte. -/
def readLen : Len → Bytes → Option (Nat × Bytes)
  | .fix n, mem => some (n, mem)
  | .wide k, mem => (splitFront k mem).map fun (ds, rest) => (beNat ds, rest)

/-- Group a flat list of children into pairs. -/
def pairUp : List Value → List (Value × Value)
  | k :: v :: vs => (k, v) :: pairUp vs
  | _ => []

/-- A flat list of pairs is grouped back into them. -/
@[simp] theorem pairUp_flat (kvs : List (Value × Value)) : pairUp (flat kvs) = kvs := by
  induction kvs with
  | nil => rfl
  | cons kv kvs ih => obtain ⟨k, v⟩ := kv; simp only [flat, pairUp, ih]

/-- ... and the other way round, for a list of even length; the induction is on the number of pairs.
-/
theorem flat_pairUp {n : Nat} : ∀ vs : List Value, vs.length = 2 * n → flat (pairUp vs) = vs := by
  induction n with
  | zero => intro vs h; rw [List.length_eq_zero_iff.mp h]; rfl
  | succ n ih =>
    intro vs h
    match vs, h with
    | k :: v :: vs, h =>
      simp only [List.length_cons] at h
      simp only [pairUp, flat, ih vs (by omega)]

mutual

/-- Read one value; the fuel bounds the work. -/
def decode : Nat → Bytes → Option (Value × Bytes)
  | 0, _ => none
  | _ + 1, [] => none
  | fuel + 1, b :: mem =>
    match lead b with
    | .nil => some (.nil, mem)
    | .never => none
    | .bool x => some (.bool x, mem)
    | .uint l => (readLen l mem).map fun (n, rest) => (.uint n, rest)
    | .negfix z => some (.int z, mem)
    | .int k => (splitFront k mem).map fun (ds, rest) => (.int (signed k (beNat ds)), rest)
    | .float => (splitFront 4 mem).map fun (ds, rest) => (.float (beNat ds), rest)
    | .double => (splitFront 8 mem).map fun (ds, rest) => (.double (beNat ds), rest)
    | .str l => do
      let (n, mem) ← readLen l mem
      let (s, rest) ← splitFront n mem
      return (.str s, rest)
    | .bin l => do
      let (n, mem) ← readLen l mem
      let (s, rest) ← splitFront n mem
      return (.bin s, rest)
    | .ext l => do
      let (n, mem) ← readLen l mem
      match mem with
      | [] => none
      | ty :: mem =>
        let (s, rest) ← splitFront n mem
        return (.ext ty s, rest)
    | .array l => do
      let (n, mem) ← readLen l mem
      let (xs, rest) ← decodeAll fuel n mem
      return (.array xs, rest)
    | .map l => do
      let (n, mem) ← readLen l mem
      let (xs, rest) ← decodeAll fuel (2 * n) mem
      return (.map (pairUp xs), rest)

/-- Read `n` values one after the other. -/
def decodeAll : Nat → Nat → Bytes → Option (List Value × Bytes)
  | _, 0, mem => some ([], mem)
  | 0, _ + 1, _ => none
  | fuel + 1, n + 1, mem => do
    let (v, mem) ← decode fuel mem
    let (vs, rest) ← decodeAll fuel n mem
    return (v :: vs, rest)

end

/-- Read the value in front of a string. -/
def decodeFront (mem : Bytes) : Option (Value × Bytes) := decode (2 * mem.length + 1) mem

/-! ## §2 — soundness. -/

/-- What is split off stands in front, and is as long as was asked for. -/
theorem splitFront_eq_some {n : Nat} {mem ds rest : Bytes}
    (h : splitFront n mem = some (ds, rest)) : mem = ds ++ rest ∧ ds.length = n := by
  unfold splitFront at h
  split at h
  · next hle =>
    obtain ⟨rfl, rfl⟩ := Prod.mk.injEq .. ▸ Option.some.inj h
    exact ⟨(List.take_append_drop n mem).symm, List.length_take_of_le hle⟩
  · exact absurd h (by simp)

/-- A string in front of another is split off it. -/
theorem splitFront_append {n : Nat} {ds rest : Bytes} (h : ds.length = n) :
    splitFront n (ds ++ rest) = some (ds, rest) := by
  subst h
  simp [splitFront]

/-- A number that is read is the one the bytes say, by the length rule. -/
theorem readLen_eq_some {l : Len} {n : Nat} {mem rest : Bytes}
    (h : readLen l mem = some (n, rest)) : ∃ ds, mem = ds ++ rest ∧ l.Holds n ds := by
  cases l with
  | fix m =>
    obtain ⟨rfl, rfl⟩ := Prod.mk.injEq .. ▸ Option.some.inj h
    exact ⟨[], rfl, rfl, rfl⟩
  | wide k =>
    simp only [readLen, Option.map_eq_some_iff, Prod.exists, Prod.mk.injEq] at h
    obtain ⟨ds, rest', hsplit, rfl, rfl⟩ := h
    obtain ⟨hmem, hlen⟩ := splitFront_eq_some hsplit
    exact ⟨ds, hmem, hlen, rfl⟩

/-- Bytes that say a number are read as it. -/
theorem readLen_append {l : Len} {n : Nat} {ds : Bytes} (h : l.Holds n ds) (rest : Bytes) :
    readLen l (ds ++ rest) = some (n, rest) := by
  cases l with
  | fix m => obtain ⟨rfl, rfl⟩ := h; rfl
  | wide k =>
    obtain ⟨hk, rfl⟩ := h
    simp only [readLen, splitFront_append hk, Option.map_some]

/-- The bytes consumed by a read are an encoding of what was read: the invariant of both
recursions. -/
def Reads (fuel : Nat) : Prop :=
  (∀ mem v rest, decode fuel mem = some (v, rest) → ∃ bs, mem = bs ++ rest ∧ Encodes v bs) ∧
  ∀ n mem vs rest, decodeAll fuel n mem = some (vs, rest) →
    ∃ bs, mem = bs ++ rest ∧ EncodesAll vs bs ∧ vs.length = n

/-- **One step of `decodeAll`**: nothing, or a value and the rest. -/
theorem decodeAll_sound_step {fuel : Nat} (ih : Reads fuel) {n : Nat} {mem : Bytes}
    {vs : List Value} {rest : Bytes} (h : decodeAll (fuel + 1) n mem = some (vs, rest)) :
    ∃ bs, mem = bs ++ rest ∧ EncodesAll vs bs ∧ vs.length = n := by
  cases n with
  | zero =>
    simp only [decodeAll, Option.some.injEq, Prod.mk.injEq] at h
    obtain ⟨rfl, rfl⟩ := h
    exact ⟨[], rfl, .nil, rfl⟩
  | succ n =>
    simp only [decodeAll, bind, Option.bind_eq_some_iff, Prod.exists, pure, Option.some.injEq,
      Prod.mk.injEq] at h
    obtain ⟨v, mem', hv, ws, rest', hvs, rfl, rfl⟩ := h
    obtain ⟨b, rfl, henc⟩ := ih.1 _ _ _ hv
    obtain ⟨bs, rfl, hencs, hlen⟩ := ih.2 _ _ _ _ hvs
    exact ⟨b ++ bs, by rw [List.append_assoc], .cons henc hencs, by simp [hlen]⟩

/-- A value of a fixed width. -/
theorem fixed_eq_some (f : Bytes → Value) {k : Nat} {mem rest : Bytes} {v : Value}
    (h : ((splitFront k mem).map fun (ds, rest) => (f ds, rest)) = some (v, rest)) :
    ∃ ds, mem = ds ++ rest ∧ ds.length = k ∧ v = f ds := by
  simp only [Option.map_eq_some_iff, Prod.exists, Prod.mk.injEq] at h
  obtain ⟨ds, rest', hsplit, rfl, rfl⟩ := h
  obtain ⟨hmem, hlen⟩ := splitFront_eq_some hsplit
  exact ⟨ds, hmem, hlen, rfl⟩

/-- A value of as many bytes as its header says. -/
theorem text_eq_some {l : Len} {f : Bytes → Value} {mem rest : Bytes} {v : Value}
    (h : (do
      let (n, mem) ← readLen l mem
      let (s, rest) ← splitFront n mem
      return (f s, rest)) = some (v, rest)) :
    ∃ ds s, mem = (ds ++ s) ++ rest ∧ l.Holds s.length ds ∧ v = f s := by
  simp only [bind, Option.bind_eq_some_iff, Prod.exists, pure, Option.some.injEq,
    Prod.mk.injEq] at h
  obtain ⟨n, mem', hl, s, rest', hs, rfl, rfl⟩ := h
  obtain ⟨ds, rfl, hds⟩ := readLen_eq_some hl
  obtain ⟨rfl, rfl⟩ := splitFront_eq_some hs
  exact ⟨ds, s, (List.append_assoc ds s rest').symm, hds, rfl⟩

/-- An extension: its type stands between the length and the bytes. -/
theorem ext_eq_some {l : Len} {mem rest : Bytes} {v : Value}
    (h : (do
      let (n, mem) ← readLen l mem
      match mem with
      | [] => none
      | ty :: mem =>
        let (s, rest) ← splitFront n mem
        return (Value.ext ty s, rest)) = some (v, rest)) :
    ∃ ds ty s, mem = (ds ++ ty :: s) ++ rest ∧ l.Holds s.length ds ∧ v = .ext ty s := by
  simp only [bind, Option.bind_eq_some_iff, Prod.exists] at h
  obtain ⟨n, mem', hl, h⟩ := h
  obtain ⟨ds, rfl, hds⟩ := readLen_eq_some hl
  cases mem' with
  | nil => exact absurd h (by simp)
  | cons ty mem' =>
    simp only [Option.bind_eq_some_iff, Prod.exists, pure, Option.some.injEq,
      Prod.mk.injEq] at h
    obtain ⟨s, rest', hs, rfl, rfl⟩ := h
    obtain ⟨rfl, rfl⟩ := splitFront_eq_some hs
    exact ⟨ds, ty, s, by rw [List.append_assoc, List.cons_append], hds, rfl⟩

/-- A container, with `count n` values behind a header that says `n`. -/
theorem container_eq_some {fuel : Nat} (ih : Reads fuel) (count : Nat → Nat)
    (f : List Value → Value) {l : Len} {mem rest : Bytes} {v : Value}
    (h : (do
      let (n, mem) ← readLen l mem
      let (xs, rest) ← decodeAll fuel (count n) mem
      return (f xs, rest)) = some (v, rest)) :
    ∃ n ds xs bs, mem = (ds ++ bs) ++ rest ∧ l.Holds n ds ∧ EncodesAll xs bs ∧
      xs.length = count n ∧ v = f xs := by
  simp only [bind, Option.bind_eq_some_iff, Prod.exists, pure, Option.some.injEq,
    Prod.mk.injEq] at h
  obtain ⟨n, mem', hl, xs, rest', hxs, rfl, rfl⟩ := h
  obtain ⟨ds, rfl, hds⟩ := readLen_eq_some hl
  obtain ⟨bs, rfl, henc, hlen⟩ := ih.2 _ _ _ _ hxs
  exact ⟨n, ds, xs, bs, (List.append_assoc ds bs rest').symm, hds, henc, hlen, rfl⟩

/-- Twice `n` children are `n` pairs. -/
theorem length_pairUp {n : Nat} {vs : List Value} (h : vs.length = 2 * n) :
    (pairUp vs).length = n := by
  have hflat := congrArg List.length (flat_pairUp vs h)
  rw [flat_length] at hflat
  omega

/-- **One step of `decode`**, by the kind of lead byte. -/
theorem decode_sound_step {fuel : Nat} (ih : Reads fuel) {mem : Bytes} {v : Value} {rest : Bytes}
    (h : decode (fuel + 1) mem = some (v, rest)) : ∃ bs, mem = bs ++ rest ∧ Encodes v bs := by
  cases mem with
  | nil => simp [decode] at h
  | cons b mem =>
    simp only [decode] at h
    split at h
    -- nil
    case h_1 hb =>
      obtain ⟨rfl, rfl⟩ := Prod.mk.injEq .. ▸ Option.some.inj h
      exact ⟨[b], rfl, .nil hb⟩
    -- a byte that starts nothing
    case h_2 => exact absurd h (by simp)
    -- a truth value
    case h_3 x hb =>
      obtain ⟨rfl, rfl⟩ := Prod.mk.injEq .. ▸ Option.some.inj h
      exact ⟨[b], rfl, .bool hb⟩
    -- an unsigned number, in its lead byte or behind it
    case h_4 l hb =>
      simp only [Option.map_eq_some_iff, Prod.exists, Prod.mk.injEq] at h
      obtain ⟨n, rest', hl, rfl, rfl⟩ := h
      obtain ⟨ds, rfl, hds⟩ := readLen_eq_some hl
      exact ⟨b :: ds, rfl, .uint hb hds⟩
    -- a negative number in its lead byte
    case h_5 z hb =>
      obtain ⟨rfl, rfl⟩ := Prod.mk.injEq .. ▸ Option.some.inj h
      exact ⟨[b], rfl, .negfix hb⟩
    -- a negative number behind it
    case h_6 k hb =>
      obtain ⟨ds, rfl, hlen, rfl⟩ := fixed_eq_some (fun ds => .int (signed k (beNat ds))) h
      exact ⟨b :: ds, rfl, .int hb hlen⟩
    -- a float
    case h_7 hb =>
      obtain ⟨ds, rfl, hlen, rfl⟩ := fixed_eq_some (fun ds => .float (beNat ds)) h
      exact ⟨b :: ds, rfl, .float hb hlen⟩
    -- a double
    case h_8 hb =>
      obtain ⟨ds, rfl, hlen, rfl⟩ := fixed_eq_some (fun ds => .double (beNat ds)) h
      exact ⟨b :: ds, rfl, .double hb hlen⟩
    -- a string
    case h_9 l hb =>
      obtain ⟨ds, s, rfl, hds, rfl⟩ := text_eq_some h
      exact ⟨b :: (ds ++ s), rfl, .str hb hds⟩
    -- a binary string
    case h_10 l hb =>
      obtain ⟨ds, s, rfl, hds, rfl⟩ := text_eq_some h
      exact ⟨b :: (ds ++ s), rfl, .bin hb hds⟩
    -- an extension
    case h_11 l hb =>
      obtain ⟨ds, ty, s, rfl, hds, rfl⟩ := ext_eq_some h
      exact ⟨b :: (ds ++ ty :: s), rfl, .ext hb hds⟩
    -- an array
    case h_12 l hb =>
      obtain ⟨n, ds, xs, bs, rfl, hds, henc, rfl, rfl⟩ := container_eq_some ih id .array h
      exact ⟨b :: (ds ++ bs), rfl, .array hb hds henc⟩
    -- a map: twice as many values as pairs
    case h_13 l hb =>
      obtain ⟨n, ds, xs, bs, rfl, hds, henc, hlen, rfl⟩ :=
        container_eq_some ih (2 * ·) (fun xs => .map (pairUp xs)) h
      refine ⟨b :: (ds ++ bs), rfl, .map hb ((length_pairUp hlen).symm ▸ hds) ?_⟩
      rwa [flat_pairUp xs hlen]

/-- Both recursions, on fuel: without any nothing is read but the empty sequence. -/
theorem reads (fuel : Nat) : Reads fuel := by
  induction fuel with
  | zero =>
    refine ⟨fun mem v rest h => absurd h (by simp [decode]), fun n mem vs rest h => ?_⟩
    cases n with
    | zero =>
      simp only [decodeAll, Option.some.injEq, Prod.mk.injEq] at h
      obtain ⟨rfl, rfl⟩ := h
      exact ⟨[], rfl, .nil, rfl⟩
    | succ n => exact absurd h (by simp [decodeAll])
  | succ fuel ih =>
    exact ⟨fun _ _ _ h => decode_sound_step ih h, fun _ _ _ _ h => decodeAll_sound_step ih h⟩

/-- **Soundness.**  Whatever the fuel, a value that is read has the bytes that were consumed as an
encoding. -/
theorem decode_sound {fuel : Nat} {mem : Bytes} {v : Value} {rest : Bytes}
    (h : decode fuel mem = some (v, rest)) : ∃ bs, mem = bs ++ rest ∧ Encodes v bs :=
  (reads fuel).1 mem v rest h

/-! ## §3 — completeness. -/

mutual

/-- **Completeness.** Fuel twice the length of the encoding reads it back, whatever follows. -/
theorem decode_complete : ∀ {v : Value} {bs : Bytes}, Encodes v bs → ∀ (fuel : Nat) (rest : Bytes),
    2 * bs.length ≤ fuel → decode fuel (bs ++ rest) = some (v, rest)
  | _, _, .nil h, fuel + 1, rest, _ => by simp only [List.cons_append, decode, h, List.nil_append]
  | _, _, .bool h, fuel + 1, rest, _ => by simp only [List.cons_append, decode, h, List.nil_append]
  | _, _, .uint h hl, fuel + 1, rest, _ => by
    simp only [List.cons_append, decode, h, readLen_append hl, Option.map_some]
  | _, _, .negfix h, fuel + 1, rest, _ => by
    simp only [List.cons_append, decode, h, List.nil_append]
  | _, _, .int h hl, fuel + 1, rest, _ => by
    simp only [List.cons_append, decode, h, splitFront_append hl, Option.map_some]
  | _, _, .float h hl, fuel + 1, rest, _ => by
    simp only [List.cons_append, decode, h, splitFront_append hl, Option.map_some]
  | _, _, .double h hl, fuel + 1, rest, _ => by
    simp only [List.cons_append, decode, h, splitFront_append hl, Option.map_some]
  | _, _, .str h hl, fuel + 1, rest, _ => by
    simp only [List.cons_append, List.append_assoc, decode, h, readLen_append hl, bind,
      Option.bind_some, splitFront_append rfl, pure]
  | _, _, .bin h hl, fuel + 1, rest, _ => by
    simp only [List.cons_append, List.append_assoc, decode, h, readLen_append hl, bind,
      Option.bind_some, splitFront_append rfl, pure]
  | _, _, .ext h hl, fuel + 1, rest, _ => by
    simp only [List.cons_append, List.append_assoc, decode, h, readLen_append hl, bind,
      Option.bind_some, splitFront_append rfl, pure]
  | _, _, .array h hl hxs, fuel + 1, rest, hfuel => by
    -- the header has a byte, so there is fuel for what it announces
    have hrec := decodeAll_complete hxs fuel rest (by simp at hfuel; omega)
    simp only [List.cons_append, List.append_assoc, decode, h, readLen_append hl, bind,
      Option.bind_some, hrec, pure]
  | _, _, .map h hl hkvs, fuel + 1, rest, hfuel => by
    have hrec := decodeAll_complete hkvs fuel rest (by simp at hfuel; omega)
    rw [flat_length] at hrec
    simp only [List.cons_append, List.append_assoc, decode, h, readLen_append hl, bind,
      Option.bind_some, hrec, pure, pairUp_flat]
  -- no encoding is empty
  | _, _, h, 0, _, hfuel => by have := h.length_pos; omega

/-- Completeness of `decodeAll`: one unit of fuel for each value, and what each value needs. -/
theorem decodeAll_complete : ∀ {vs : List Value} {bs : Bytes}, EncodesAll vs bs →
    ∀ (fuel : Nat) (rest : Bytes), 2 * bs.length + 1 ≤ fuel →
      decodeAll fuel vs.length (bs ++ rest) = some (vs, rest)
  | _, _, .nil, fuel, rest, _ => by simp only [List.length_nil, List.nil_append, decodeAll]
  | _, _, @EncodesAll.cons _ _ b bs h hs, fuel + 1, rest, hfuel => by
    have hpos := h.length_pos
    have hlen : 2 * (b.length + bs.length) + 1 ≤ fuel + 1 := by simpa using hfuel
    have hv := decode_complete h fuel (bs ++ rest) (by omega)
    have hvs := decodeAll_complete hs fuel rest (by omega)
    simp only [List.length_cons, List.append_assoc, decodeAll, bind, hv, Option.bind_some, hvs,
      pure]

end

/-- An encoding in front of any string is read, and the string is left. -/
theorem decodeFront_append {v : Value} {bs : Bytes} (h : Encodes v bs) (rest : Bytes) :
    decodeFront (bs ++ rest) = some (v, rest) :=
  decode_complete h _ rest (by simp; omega)

/-- `decodeFront` reads exactly what `Encodes` relates: the decoder decides the format. -/
theorem decodeFront_eq_some_iff {mem : Bytes} {v : Value} {rest : Bytes} :
    decodeFront mem = some (v, rest) ↔ ∃ bs, mem = bs ++ rest ∧ Encodes v bs := by
  constructor
  · exact decode_sound
  · rintro ⟨bs, rfl, h⟩
    exact decodeFront_append h rest

/-- **Unambiguity.** A string starts with at most one encoding, of at most one value.  Both
encodings are read back by the same decoder, so they are one. -/
theorem Encodes.unique {v w : Value} {bs cs r s : Bytes} (h : Encodes v bs) (h' : Encodes w cs)
    (heq : bs ++ r = cs ++ s) : v = w ∧ bs = cs ∧ r = s := by
  have hread := decodeFront_append h r
  rw [heq, decodeFront_append h' s] at hread
  obtain ⟨rfl, rfl⟩ := Prod.mk.injEq .. ▸ Option.some.inj hread
  exact ⟨rfl, List.append_cancel_right heq, rfl⟩

/-! ## §4 — looking at the front of a string.

What a cursor-based reader asks of the memory it points to: which value starts here and how long it
is (`Front`), or what the header here announces and how long the header is (`Header`). -/

/-- A value `v`, `k` bytes long, stands in front of `mem`. -/
def Front (mem : Bytes) (v : Value) (k : Nat) : Prop :=
  ∃ bs rest, mem = bs ++ rest ∧ Encodes v bs ∧ k = bs.length

/-- A header of family `mk` announcing `n`, `k` bytes long, stands in front of `mem`. -/
def Header (mk : Len → Lead) (mem : Bytes) (n k : Nat) : Prop :=
  ∃ b l ds rest, mem = b :: (ds ++ rest) ∧ lead b = mk l ∧ l.Holds n ds ∧ k = 1 + ds.length

/-- Measure the value in front. -/
def frontLength (mem : Bytes) : Option Nat :=
  (decodeFront mem).map fun (_, rest) => mem.length - rest.length

/-- `frontLength` measures exactly the encodings. -/
theorem frontLength_eq_some_iff {mem : Bytes} {k : Nat} :
    frontLength mem = some k ↔ ∃ v, Front mem v k := by
  simp only [frontLength, Option.map_eq_some_iff, Prod.exists, decodeFront_eq_some_iff]
  constructor
  · rintro ⟨v, rest, ⟨bs, rfl, h⟩, rfl⟩
    exact ⟨v, bs, rest, rfl, h, by simp⟩
  · rintro ⟨v, bs, rest, rfl, h, rfl⟩
    exact ⟨v, rest, ⟨bs, rfl, h⟩, by simp⟩

/-- Read the header in front, if its lead byte is of the family `sel` selects. -/
def readHeader (sel : Lead → Option Len) : Bytes → Option (Nat × Nat)
  | [] => none
  | b :: mem =>
    match sel (lead b) with
    | none => none
    | some l => (readLen l mem).map fun (n, rest) => (n, 1 + (mem.length - rest.length))

/-- `readHeader` reads exactly the headers of the family it selects. -/
theorem readHeader_eq_some_iff {sel : Lead → Option Len} {mk : Len → Lead}
    (hsel : ∀ x l, sel x = some l ↔ x = mk l) {mem : Bytes} {n k : Nat} :
    readHeader sel mem = some (n, k) ↔ Header mk mem n k := by
  cases mem with
  | nil =>
    refine ⟨fun h => by simp [readHeader] at h, ?_⟩
    rintro ⟨b, l, ds, rest, h, -⟩
    simp at h
  | cons b mem =>
    constructor
    · intro h
      simp only [readHeader] at h
      split at h
      · exact absurd h (by simp)
      · next l hl =>
        simp only [Option.map_eq_some_iff, Prod.exists, Prod.mk.injEq] at h
        obtain ⟨n', rest, hread, rfl, rfl⟩ := h
        obtain ⟨ds, rfl, hds⟩ := readLen_eq_some hread
        exact ⟨b, l, ds, rest, rfl, (hsel _ _).mp hl, hds, by simp⟩
    · rintro ⟨b', l, ds, rest, hmem, hl, hds, rfl⟩
      obtain ⟨rfl, rfl⟩ := List.cons.inj hmem
      simp only [readHeader, (hsel _ _).mpr hl, readLen_append hds, Option.map_some]
      simp

/-- In front of an encoding stands its header. -/
theorem Header.of_uint {n : Nat} {bs : Bytes} (h : Encodes (.uint n) bs) (rest : Bytes) :
    Header .uint (bs ++ rest) n bs.length := by
  cases h with
  | @uint b l _ ds hb hl => exact ⟨b, l, ds, rest, rfl, hb, hl, by simp; omega⟩

end TarantoolC.MsgPack
