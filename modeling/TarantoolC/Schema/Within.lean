/-
# TarantoolC.Schema.Within — what the schema readers look at.

`tnt_schema_add_space` and `tnt_schema_add_index` never look at how long a tuple is, and the second
decodes the number of a space without a look at its type.  So a tuple that is too short sends the
cursor into the next one, or behind the data.

Here a reader is followed under a FENCE: it may look at the type of any value of the data, but
decode only from the bytes of its own tuple.  Over the bytes stands a reader of VALUES (`spaceRead`,
`indexRead`), which the fenced code computes; from it one reads off which tuples stray.
`tntSchemaAdd_within_iff` says for which data both functions keep within their tuples.

## The layers

* The fenced code (`fencedAddSpace`, `fencedAddIndex`): the functions of `TarantoolC.Schema.Load`,
  with a parameter for the bytes they may decode.  Under `Fence.whole` they are those functions; a
  call keeps within its tuples if `Fence.tuple` makes no difference.
* Readers of values: at the cursor stand the values that are left of the tuple (`xs`) and those
  behind it (`ws`).  A step looks at a type in `xs ++ ws` and decodes from `xs`.
* `Stands`, the relation between the two: it is preserved by each reader, so one fenced field is one
  step on values.
* `walk`, the loop on values, and `keepsWithin_iff_walk`: what is left has no bytes in it.

That a type is looked at beyond the tuple is not counted as a fault in itself: at the end of a reply
there is always another byte to look at, and the reader decodes nothing there.
-/
import TarantoolC.Schema.Answers

namespace TarantoolC.Schema

open MsgPack Msgpuck

section Code

variable [Msgpuck]

/-! ## §1 — the code, with the bytes it may decode. -/

/-- The fields `tnt_schema_add_space` reads: it looks at types in `buf` and decodes from `dec`.  The
two are different because a type is looked at before a value is decoded: looking behind the tuple is
what the code does, and decoding behind it is what the fence forbids. -/
def fencedSpaceFields (alloc : Nat → Bool) (buf dec : Bytes) (tuple : Nat) : Outcome Label := do
  expectType buf tuple .array
  let (_, tuple) ← decodeArrayAt dec tuple
  expectType buf tuple .uint
  let (number, tuple) ← decodeUintAt dec tuple
  let tuple ← nextAt dec tuple
  expectType buf tuple .str
  let name ← copyNameAt alloc dec tuple
  return ⟨name, number % 2 ^ 32⟩

/-- What `tnt_schema_add_index` reads before it looks up the space. -/
def fencedIndexSpace (buf dec : Bytes) (tuple : Nat) : Outcome (Nat × Nat) := do
  expectType buf tuple .array
  let (_, tuple) ← decodeArrayAt dec tuple
  let (sid, tuple) ← decodeUintAt dec tuple
  expectType buf tuple .uint
  return (sid % 2 ^ 32, tuple)

/-- What it reads after that. -/
def fencedIndexFields (alloc : Nat → Bool) (buf dec : Bytes) (tuple : Nat) : Outcome Label := do
  expectType buf tuple .uint
  let (number, tuple) ← decodeUintAt dec tuple
  expectType buf tuple .str
  let name ← copyNameAt alloc dec tuple
  return ⟨name, number % 2 ^ 32⟩

/-- Where a function may decode: anywhere in the data, or only in the tuple at `data`. -/
abbrev Fence := Bytes → Nat → Bytes

def Fence.whole : Fence := fun buf _ => buf

def Fence.tuple : Fence := fun buf data =>
  match nextAt buf data with
  | .ok last => buf.take last
  | _ => []

/-- `tnt_schema_add_space`, with a fence. -/
def fencedAddSpace (alloc : Nat → Bool) (fence : Fence) (sch : TntSchema) (buf : Bytes)
    (data : Nat) : Option (Int × TntSchema × Nat) :=
  match fencedSpaceFields alloc buf (fence buf data) data with
  | .undef => none
  | .fail => finish buf data (-1) sch
  | .ok l => finish buf data 0 (sch.addSpace l)

/-- `tnt_schema_add_index`, with a fence.  Without a fence it is the function of
`TarantoolC.Schema.Load`. -/
def fencedAddIndex (alloc : Nat → Bool) (fence : Fence) (sch : TntSchema) (buf : Bytes)
    (data : Nat) : Option (Int × TntSchema × Nat) :=
  match fencedIndexSpace buf (fence buf data) data with
  | .undef => none
  | .fail => finish buf data (-1) sch
  | .ok (sid, tuple) =>
    match sch.spaceHash.find (le32 sid) with
    | none => some (-1, sch, data)
    | some a =>
      match fencedIndexFields alloc buf (fence buf data) tuple with
      | .undef => none
      | .fail => finish buf data (-1) sch
      | .ok l => finish buf data 0 (sch.addIndex a l)

/-- Without a fence this is the code. -/
theorem fencedAddSpace_whole (alloc : Nat → Bool) :
    fencedAddSpace alloc Fence.whole = tntSchemaAddSpace alloc := rfl

/-- Without a fence this is the function itself. -/
theorem fencedAddIndex_whole (alloc : Nat → Bool) :
    fencedAddIndex alloc Fence.whole = tntSchemaAddIndex alloc := rfl

/-! ## §2 — the same reader, on values. -/

/-- `x` is undefined, or the same as `y`. -/
def Below {α : Type} (x y : Outcome α) : Prop := x = .undef ∨ x = y

omit [Msgpuck] in
/-- Less defined, or the same: ... -/
theorem Below.refl {α : Type} (x : Outcome α) : Below x x := .inr rfl

omit [Msgpuck] in
/-- ... a relation that steps in a row keep. -/
theorem Below.bind {α β : Type} {x y : Outcome α} {f g : α → Outcome β} (h : Below x y)
    (hf : ∀ a, Below (f a) (g a)) : Below (x >>= f) (y >>= g) := by
  rcases h with rfl | rfl
  · exact .inl rfl
  · cases x with
    | undef => exact .inl rfl
    | fail => exact .inr rfl
    | ok a => exact hf a

/-- `if (mp_typeof(*tuple) != t) goto error;`, on the values from the cursor to the end of the
data. -/
def peek (t : Ty) : List Value → Outcome Unit
  | [] => .undef
  | v :: _ => if v.ty ≠ t then .fail else .ok ()

def takeUint : List Value → Outcome (Nat × List Value)
  | .uint n :: xs => .ok (n, xs)
  | _ => .undef

def takeName (alloc : Nat → Bool) : List Value → Outcome Bytes
  | .str s :: _ => if alloc s.length then .ok s else .fail
  | _ => .undef

def skip : List Value → Outcome (List Value)
  | [] => .undef
  | _ :: xs => .ok xs

/-- The fields of a space: it decodes from `xs`, and looks at types in `xs` and behind it.  It is
the same reader over values instead of bytes, so that a tuple that is too short can be told by the
number of its values. -/
def spaceRead (alloc : Nat → Bool) (xs ws : List Value) : Outcome Label := do
  peek .uint (xs ++ ws)
  let (number, xs) ← takeUint xs
  let xs ← skip xs
  peek .str (xs ++ ws)
  let name ← takeName alloc xs
  return ⟨name, number % 2 ^ 32⟩

def sidRead (xs ws : List Value) : Outcome (Nat × List Value) := do
  let (sid, xs) ← takeUint xs
  peek .uint (xs ++ ws)
  return (sid % 2 ^ 32, xs)

def indexRead (alloc : Nat → Bool) (xs ws : List Value) : Outcome Label := do
  peek .uint (xs ++ ws)
  let (number, xs) ← takeUint xs
  peek .str (xs ++ ws)
  let name ← takeName alloc xs
  return ⟨name, number % 2 ^ 32⟩

omit [Msgpuck] in
/-- A reader of the library has no error of its own. -/
theorem ofReader_ne_fail {α : Type} (r : Option α) : Outcome.ofReader r ≠ .fail := by
  cases r <;> simp [Outcome.ofReader]

/-- The cursor `p` stands before the values `xs`, which end with `dec`, and `ws`, which end with
`buf`. -/
def Stands (dec buf : Bytes) (p : Nat) (xs ws : List Value) : Prop :=
  ∃ pre body post, dec = pre ++ body ∧ buf = pre ++ (body ++ post) ∧ p = pre.length ∧
    EncodesAll xs body ∧ EncodesAll ws post

section Stands

variable {dec buf : Bytes} {p : Nat} {xs ws : List Value}

omit [Msgpuck] in
/-- One value further.  The decoder and the type check see the same bytes as long as there is a
value left. -/
theorem Stands.cons_cases {v : Value} (h : Stands dec buf p (v :: xs) ws) :
    ∃ pre bs body post, dec = pre ++ (bs ++ body) ∧ buf = pre ++ (bs ++ (body ++ post)) ∧
      p = pre.length ∧ Encodes v bs ∧ Stands dec buf (pre ++ bs).length xs ws := by
  obtain ⟨pre, cs, post, hdec, hbuf, hp, hxs, hws⟩ := h
  obtain ⟨bs, body, rfl, hv, hbody⟩ := hxs.cons_cases
  rw [List.append_assoc] at hbuf
  refine ⟨pre, bs, body, post, hdec, hbuf, hp, hv, pre ++ bs, body, post, ?_, ?_, rfl, hbody, hws⟩
  · rw [hdec, List.append_assoc]
  · rw [hbuf, List.append_assoc]

omit [Msgpuck] in
/-- With nothing left to decode from, the rest of `dec` is empty. -/
theorem Stands.drop_nil (h : Stands dec buf p [] ws) : dec.drop p = [] := by
  obtain ⟨pre, body, post, rfl, -, rfl, hxs, -⟩ := h
  cases hxs with
  | nil => exact List.drop_left

/-! A reader of a value reads at least its first byte. -/

/-- At the end of what may be decoded, a number, ... -/
theorem decodeUintAt_end (h : dec.drop p = []) : decodeUintAt dec p = .undef := by
  cases hd : mpDecodeUint (dec.drop p) with
  | none =>
    rw [decodeUintAt, hd]
    rfl
  | some r =>
    rcases (mpDecodeUint_iff _ r.1 r.2).mp hd with ⟨b, l, ds, rest, hmem, -⟩
    exact absurd (h.symm.trans hmem) (by simp)

/-- ... a text, ... -/
theorem decodeStrAt_end (h : dec.drop p = []) : decodeStrAt dec p = .undef := by
  cases hd : mpDecodeStr (dec.drop p) with
  | none =>
    rw [decodeStrAt, hd]
    rfl
  | some r =>
    rcases (mpDecodeStr_iff _ r.1 r.2).mp hd with ⟨b, l, ds, rest, hmem, -⟩
    exact absurd (h.symm.trans hmem) (by simp)

/-- ... and any value are undefined. -/
theorem nextAt_end (h : dec.drop p = []) : nextAt dec p = .undef := by
  cases hd : mpNext (dec.drop p) with
  | none =>
    rw [nextAt, hd]
    rfl
  | some k =>
    rcases (mpNext_iff _ _).mp hd with ⟨v, bs, rest, hmem, hv, -⟩
    exact absurd (List.append_eq_nil_iff.mp (h.symm.trans hmem).symm).1 hv.ne_nil

/-- The cursor on bytes and the one on values: they see the same type, ... -/
theorem Stands.peek (h : Stands dec buf p xs ws) (t : Ty) :
    expectType buf p t = peek t (xs ++ ws) := by
  obtain ⟨pre, body, post, -, rfl, rfl, hxs, hws⟩ := h
  have hall := hxs.append hws
  generalize xs ++ ws = vs at hall
  generalize body ++ post = cs at hall
  cases hall with
  | nil =>
    have hget : (pre ++ [])[pre.length]? = none := by simp
    rw [expectType, typeAt, hget]
    rfl
  | @cons v vs bs rest hv hvs =>
    rw [expectType, typeAt_front pre rest hv]
    rfl

/-- ... read the same number and go on alike, ... -/
theorem Stands.takeUint (h : Stands dec buf p xs ws) :
    (takeUint xs = .undef ∧ decodeUintAt dec p = .undef) ∨
      ∃ n xs' q, takeUint xs = .ok (n, xs') ∧ decodeUintAt dec p = .ok (n, q) ∧
        Stands dec buf q xs' ws := by
  cases xs with
  | nil =>
    exact .inl ⟨rfl, decodeUintAt_end h.drop_nil⟩
  | cons v xs =>
    obtain ⟨pre, bs, body, post, rfl, -, rfl, hv, hnext⟩ := h.cons_cases
    by_cases hty : v.ty = .uint
    · obtain ⟨n, rfl⟩ := Value.eq_uint_of_ty hty
      exact .inr ⟨n, xs, _, rfl, decodeUintAt_front pre body hv, hnext⟩
    · left
      refine ⟨?_, ?_⟩
      · cases v <;> first | rfl | exact absurd rfl hty
      · cases hd : decodeUintAt (pre ++ (bs ++ body)) pre.length with
        | undef => rfl
        | fail => exact absurd hd (ofReader_ne_fail _)
        | ok r => exact absurd (by rw [(decodeUintAt_inv pre body hv hd).1]; rfl) hty

/-- ... step over the same value, ... -/
theorem Stands.skip (h : Stands dec buf p xs ws) :
    (skip xs = .undef ∧ nextAt dec p = .undef) ∨
      ∃ xs' q, skip xs = .ok xs' ∧ nextAt dec p = .ok q ∧ Stands dec buf q xs' ws := by
  cases xs with
  | nil =>
    exact .inl ⟨rfl, nextAt_end h.drop_nil⟩
  | cons v xs =>
    obtain ⟨pre, bs, body, post, rfl, -, rfl, hv, hnext⟩ := h.cons_cases
    exact .inr ⟨xs, _, rfl, nextAt_front pre body hv, hnext⟩

/-- ... and read the same name. -/
theorem Stands.takeName (h : Stands dec buf p xs ws) (alloc : Nat → Bool) :
    copyNameAt alloc dec p = takeName alloc xs := by
  cases xs with
  | nil =>
    rw [copyNameAt, copyStrAt, decodeStrAt_end h.drop_nil]
    rfl
  | cons v xs =>
    obtain ⟨pre, bs, body, post, rfl, -, rfl, hv, -⟩ := h.cons_cases
    by_cases hty : v.ty = .str
    · obtain ⟨s, rfl⟩ := Value.eq_str_of_ty hty
      rw [copyNameAt, copyStrAt_front pre body hv]
      rfl
    · -- a value that is no string has no string's leading byte, so the decoder is not defined on it
      have hdec : decodeStrAt (pre ++ (bs ++ body)) pre.length = .undef := by
        rw [decodeStrAt, List.drop_left]
        cases hd : mpDecodeStr (bs ++ body) with
        | none => rfl
        | some r =>
          obtain ⟨b, l, ds, rest, hmem, hlead, -⟩ := (mpDecodeStr_iff _ r.1 r.2).mp hd
          cases bs with
          | nil => exact absurd rfl hv.ne_nil
          | cons b' bs =>
            obtain ⟨rfl, -⟩ := List.cons.inj hmem
            have hlty := hv.lead_ty
            rw [hlead] at hlty
            exact absurd (Option.some.inj hlty).symm hty
      have hname : TarantoolC.Schema.takeName alloc (v :: xs) = .undef := by
        cases v <;> first | rfl | exact absurd rfl hty
      rw [copyNameAt, copyStrAt, hdec, hname]
      rfl

end Stands

/-- Where both functions are once they have seen that the tuple is an array.  With the fence of the
tuple it stands before the fields and sees the rows behind them; with the fence of the data all of
these are fields. -/
theorem stands_fields {bs : Bytes} {xs ws : List Value} (h : Encodes (.array xs) bs) (pre : Bytes)
    {post : Bytes} (hws : EncodesAll ws post) :
    ∃ n q, (decodeArrayAt (pre ++ bs) pre.length = .ok (n, q) ∧
        Stands (pre ++ bs) (pre ++ (bs ++ post)) q xs ws) ∧
      (decodeArrayAt (pre ++ (bs ++ post)) pre.length = .ok (n, q) ∧
        Stands (pre ++ (bs ++ post)) (pre ++ (bs ++ post)) q (xs ++ ws) []) := by
  obtain ⟨b, l, ds, body, rfl, hlead, hl, hall⟩ := h.array_cases
  have hbuf : pre ++ (b :: ds ++ body ++ post) = pre ++ b :: ds ++ (body ++ post) := by simp
  have hdec : pre ++ (b :: ds ++ body) = pre ++ b :: ds ++ body := by simp
  refine ⟨xs.length, (pre ++ b :: ds).length, ⟨?_, ?_⟩, ?_, ?_⟩
  · exact decodeArrayAt_front pre body hlead hl
  · exact ⟨pre ++ b :: ds, body, post, hdec, hbuf, rfl, hall, hws⟩
  · rw [List.append_assoc]
    exact decodeArrayAt_front pre (body ++ post) hlead hl
  · refine ⟨pre ++ b :: ds, body ++ post, [], hbuf, ?_, rfl, hall.append hws, .nil⟩
    rw [hbuf, List.append_nil]

section Fields

variable {dec buf : Bytes} {data q n : Nat} {xs ws : List Value}

/-- The fields of a space, ... -/
theorem fencedSpaceFields_eq (htype : expectType buf data .array = .ok ())
    (hdec : decodeArrayAt dec data = .ok (n, q)) (h : Stands dec buf q xs ws)
    (alloc : Nat → Bool) : fencedSpaceFields alloc buf dec data = spaceRead alloc xs ws := by
  simp only [fencedSpaceFields, spaceRead, htype, hdec, Outcome.ok_bind, h.peek]
  congr 1
  funext _
  rcases h.takeUint with ⟨hx, hd⟩ | ⟨number, xs₁, q₁, hx, hd, h₁⟩
  · rw [hx, hd]
    rfl
  simp only [hx, hd, Outcome.ok_bind]
  rcases h₁.skip with ⟨hx, hd⟩ | ⟨xs₂, q₂, hx, hd, h₂⟩
  · rw [hx, hd]
    rfl
  simp only [hx, hd, Outcome.ok_bind, h₂.peek, h₂.takeName]

/-- ... the number an index starts with, ... -/
theorem fencedIndexSpace_eq (htype : expectType buf data .array = .ok ())
    (hdec : decodeArrayAt dec data = .ok (n, q)) (h : Stands dec buf q xs ws) :
    (sidRead xs ws = .undef ∧ fencedIndexSpace buf dec data = .undef) ∨
      (sidRead xs ws = .fail ∧ fencedIndexSpace buf dec data = .fail) ∨
      ∃ sid xs' q', sidRead xs ws = .ok (sid, xs') ∧ fencedIndexSpace buf dec data = .ok (sid, q') ∧
        Stands dec buf q' xs' ws := by
  simp only [fencedIndexSpace, sidRead, htype, hdec, Outcome.ok_bind]
  rcases h.takeUint with ⟨hx, hd⟩ | ⟨sid, xs₁, q₁, hx, hd, h₁⟩
  · rw [hx, hd]
    exact .inl ⟨rfl, rfl⟩
  simp only [hx, hd, Outcome.ok_bind, h₁.peek]
  cases peek .uint (xs₁ ++ ws) with
  | undef => exact .inl ⟨rfl, rfl⟩
  | fail => exact .inr (.inl ⟨rfl, rfl⟩)
  | ok _ => exact .inr (.inr ⟨_, xs₁, q₁, rfl, rfl, h₁⟩)

/-- ... and the rest of it are read alike. -/
theorem fencedIndexFields_eq (h : Stands dec buf q xs ws) (alloc : Nat → Bool) :
    fencedIndexFields alloc buf dec q = indexRead alloc xs ws := by
  simp only [fencedIndexFields, indexRead, h.peek]
  congr 1
  funext _
  rcases h.takeUint with ⟨hx, hd⟩ | ⟨number, xs₁, q₁, hx, hd, h₁⟩
  · rw [hx, hd]
    rfl
  simp only [hx, hd, Outcome.ok_bind, h₁.peek, h₁.takeName]

end Fields

/-! A reader of its own values alone reads the same where it reads at all. -/

section Below

variable (alloc : Nat → Bool) (xs ws : List Value)

omit [Msgpuck] in
/-- Decoding from less is decoding the same, or nothing: a number, ... -/
theorem takeUint_below : takeUint xs = .undef ∨
    ∃ n xs', takeUint xs = .ok (n, xs') ∧ takeUint (xs ++ ws) = .ok (n, xs' ++ ws) := by
  unfold takeUint
  split
  · exact .inr ⟨_, _, rfl, rfl⟩
  · exact .inl rfl

omit [Msgpuck] in
/-- ... a name, ... -/
theorem takeName_below : Below (takeName alloc xs) (takeName alloc (xs ++ ws)) := by
  unfold takeName
  split
  · exact .inr rfl
  · exact .inl rfl

omit [Msgpuck] in
/-- ... a space, ... -/
theorem spaceRead_below : Below (spaceRead alloc xs ws) (spaceRead alloc (xs ++ ws) []) := by
  simp only [spaceRead, List.append_nil]
  refine Below.bind (.refl _) fun _ => ?_
  rcases takeUint_below xs ws with hx | ⟨n, xs₁, hx, hy⟩
  · rw [hx]
    exact .inl rfl
  simp only [hx, hy, Outcome.ok_bind]
  cases xs₁ with
  | nil => exact .inl rfl
  | cons _ xs₂ =>
    simp only [skip, List.cons_append, Outcome.ok_bind]
    refine Below.bind (.refl _) fun _ => ?_
    exact Below.bind (takeName_below alloc xs₂ ws) fun _ => .refl _

omit [Msgpuck] in
/-- ... the start of an index, ... -/
theorem sidRead_below : sidRead xs ws = .undef ∨
    (sidRead xs ws = .fail ∧ sidRead (xs ++ ws) [] = .fail) ∨
      ∃ sid xs', sidRead xs ws = .ok (sid, xs') ∧ sidRead (xs ++ ws) [] = .ok (sid, xs' ++ ws) := by
  simp only [sidRead, List.append_nil]
  rcases takeUint_below xs ws with hx | ⟨n, xs₁, hx, hy⟩
  · rw [hx]
    exact .inl rfl
  simp only [hx, hy, Outcome.ok_bind]
  cases peek .uint (xs₁ ++ ws) with
  | undef => exact .inl rfl
  | fail => exact .inr (.inl ⟨rfl, rfl⟩)
  | ok _ => exact .inr (.inr ⟨_, xs₁, rfl, rfl⟩)

omit [Msgpuck] in
/-- ... and the rest. -/
theorem indexRead_below : Below (indexRead alloc xs ws) (indexRead alloc (xs ++ ws) []) := by
  simp only [indexRead, List.append_nil]
  refine Below.bind (.refl _) fun _ => ?_
  rcases takeUint_below xs ws with hx | ⟨n, xs₁, hx, hy⟩
  · rw [hx]
    exact .inl rfl
  simp only [hx, hy, Outcome.ok_bind]
  refine Below.bind (.refl _) fun _ => ?_
  exact Below.bind (takeName_below alloc xs₁ ws) fun _ => .refl _

end Below

/-! ## §3 — one tuple. -/

section Steps

variable (alloc : Nat → Bool)

/-- `tnt_schema_add_space` on a value `v` before the values `ws`, of which it may decode only those
`own` gives it.  A row that is no array is refused before anything in it is read. -/
def spaceStep (own : List Value → List Value → List Value × List Value) (sch : TntSchema) :
    Value → List Value → Option (Int × TntSchema)
  | .array xs, ws =>
    match spaceRead alloc (own xs ws).1 (own xs ws).2 with
    | .undef => none
    | .fail => some (-1, sch)
    | .ok l => some (0, sch.addSpace l)
  | _, _ => some (-1, sch)

/-- `tnt_schema_add_index`.  The space is looked up between the first field and the second. -/
def indexStep (own : List Value → List Value → List Value × List Value) (sch : TntSchema) :
    Value → List Value → Option (Int × TntSchema)
  | .array xs, ws =>
    match sidRead (own xs ws).1 (own xs ws).2 with
    | .undef => none
    | .fail => some (-1, sch)
    | .ok (sid, rest) =>
      match sch.spaceHash.find (le32 sid) with
      | none => some (-1, sch)
      | some a =>
        match indexRead alloc rest (own xs ws).2 with
        | .undef => none
        | .fail => some (-1, sch)
        | .ok l => some (0, sch.addIndex a l)
  | _, _ => some (-1, sch)

/-- The fields of the tuple, or all that is left of the data. -/
def ownTuple (xs ws : List Value) : List Value × List Value := (xs, ws)

def ownAll (xs ws : List Value) : List Value × List Value := (xs ++ ws, [])

end Steps

/-- The fence leaves the cursor the values that `own` gives it. -/
def Gives (fence : Fence) (own : List Value → List Value → List Value × List Value) : Prop :=
  ∀ {xs ws : List Value} {pre bs post : Bytes}, Encodes (.array xs) bs → EncodesAll ws post →
    ∃ n q, decodeArrayAt (fence (pre ++ (bs ++ post)) pre.length) pre.length = .ok (n, q) ∧
      Stands (fence (pre ++ (bs ++ post)) pre.length) (pre ++ (bs ++ post)) q (own xs ws).1
        (own xs ws).2

/-- The fence around a tuple gives its own fields, ... -/
theorem gives_tuple : Gives Fence.tuple ownTuple := by
  intro xs ws pre bs post h hws
  have hfence : Fence.tuple (pre ++ (bs ++ post)) pre.length = pre ++ bs := by
    rw [Fence.tuple, nextAt_front pre post h, ← List.append_assoc]
    exact List.take_left
  obtain ⟨n, q, hown, -⟩ := stands_fields h pre hws
  rw [hfence]
  exact ⟨n, q, hown⟩

/-- ... and no fence all values to the end. -/
theorem gives_whole : Gives Fence.whole ownAll := by
  intro xs ws pre bs post h hws
  obtain ⟨n, q, -, hall⟩ := stands_fields h pre hws
  exact ⟨n, q, hall⟩

/-- `add` on bytes does what `step` does on values; where it succeeds it leaves the pointer behind
the tuple.  A step that fails leaves the pointer anywhere, since the loop does not go on from there.
-/
def Follows (add : TntSchema → Bytes → Nat → Option (Int × TntSchema × Nat))
    (step : TntSchema → Value → List Value → Option (Int × TntSchema)) : Prop :=
  ∀ (sch : TntSchema) {v : Value} {ws : List Value} {pre bs post : Bytes}, Encodes v bs →
    EncodesAll ws post →
    match step sch v ws with
    | none => add sch (pre ++ (bs ++ post)) pre.length = none
    | some (rc, sch') => ∃ p, add sch (pre ++ (bs ++ post)) pre.length = some (rc, sch', p) ∧
        (rc = 0 → p = (pre ++ bs).length)

section Follow

variable {fence : Fence} {own : List Value → List Value → List Value × List Value}

/-- A tuple that is no array. -/
theorem expectType_array_fail {v : Value} {bs : Bytes} (h : Encodes v bs) (hty : v.ty ≠ .array)
    (pre post : Bytes) : expectType (pre ++ (bs ++ post)) pre.length .array = .fail := by
  rw [expectType, typeAt_front pre post h]
  simp only [Outcome.ok_bind, ne_eq, hty, not_false_eq_true, if_true]

/-- The function on bytes is the step on values, for spaces ... -/
theorem fencedAddSpace_follows (alloc : Nat → Bool) (hown : Gives fence own) :
    Follows (fencedAddSpace alloc fence) (spaceStep alloc own) := by
  intro sch v ws pre bs post hv hws
  by_cases hty : v.ty = .array
  · obtain ⟨xs, rfl⟩ := Value.eq_array_of_ty hty
    obtain ⟨n, q, hdec, hst⟩ := @hown xs ws pre bs post hv hws
    have hread := fencedSpaceFields_eq (expectType_front pre post hv) hdec hst alloc
    simp only [spaceStep, fencedAddSpace, hread]
    cases spaceRead alloc (own xs ws).1 (own xs ws).2 with
    | undef => rfl
    | fail => exact ⟨_, finish_front pre post hv _ _, fun _ => rfl⟩
    | ok l => exact ⟨_, finish_front pre post hv _ _, fun _ => rfl⟩
  · have hstep : spaceStep alloc own sch v ws = some (-1, sch) := by
      cases v <;> first | rfl | exact absurd rfl hty
    rw [hstep]
    refine ⟨_, ?_, fun _ => rfl⟩
    rw [fencedAddSpace, fencedSpaceFields, expectType_array_fail hv hty]
    exact finish_front pre post hv _ _

/-- ... and indexes. -/
theorem fencedAddIndex_follows (alloc : Nat → Bool) (hown : Gives fence own) :
    Follows (fencedAddIndex alloc fence) (indexStep alloc own) := by
  intro sch v ws pre bs post hv hws
  by_cases hty : v.ty = .array
  · obtain ⟨xs, rfl⟩ := Value.eq_array_of_ty hty
    obtain ⟨n, q, hdec, hst⟩ := @hown xs ws pre bs post hv hws
    simp only [indexStep, fencedAddIndex]
    rcases fencedIndexSpace_eq (expectType_front pre post hv) hdec hst with
      ⟨hx, hd⟩ | ⟨hx, hd⟩ | ⟨sid, rest, q₁, hx, hd, h₁⟩
    · simp only [hx, hd]
    · simp only [hx, hd]
      exact ⟨_, finish_front pre post hv _ _, fun _ => rfl⟩
    · simp only [hx, hd]
      cases sch.spaceHash.find (le32 sid) with
      | none => exact ⟨_, rfl, fun h => absurd h (by decide)⟩
      | some a =>
        simp only [fencedIndexFields_eq h₁ alloc]
        cases indexRead alloc rest (own xs ws).2 with
        | undef => rfl
        | fail => exact ⟨_, finish_front pre post hv _ _, fun _ => rfl⟩
        | ok l => exact ⟨_, finish_front pre post hv _ _, fun _ => rfl⟩
  · have hstep : indexStep alloc own sch v ws = some (-1, sch) := by
      cases v <;> first | rfl | exact absurd rfl hty
    rw [hstep]
    refine ⟨_, ?_, fun _ => rfl⟩
    rw [fencedAddIndex, fencedIndexSpace, expectType_array_fail hv hty]
    exact finish_front pre post hv _ _

end Follow

/-! ## §4 — all tuples. -/

/-- The loop, on values.  It is `addLoop` without the memory. -/
def walk (step : TntSchema → Value → List Value → Option (Int × TntSchema)) :
    TntSchema → List Value → Option (Int × TntSchema)
  | sch, [] => some (0, sch)
  | sch, v :: ws =>
    match step sch v ws with
    | none => none
    | some (rc, sch) => if rc ≠ 0 then some (-1, sch) else walk step sch ws

section Walk

variable {add : TntSchema → Bytes → Nat → Option (Int × TntSchema × Nat)}
  {step step' : TntSchema → Value → List Value → Option (Int × TntSchema)}

omit [Msgpuck] in
/-- So the loop is the walk, ... -/
theorem addLoop_walk (h : Follows add step) (sch : TntSchema) (pre : Bytes) {rows : List Value}
    {body : Bytes} (hall : EncodesAll rows body) :
    addLoop add (pre ++ body) rows.length pre.length sch = walk step sch rows := by
  induction rows generalizing sch pre body with
  | nil => rfl
  | cons v ws ih =>
    obtain ⟨bs, post, rfl, hv, hws⟩ := hall.cons_cases
    have hone := @h sch v ws pre bs post hv hws
    rw [List.length_cons, addLoop, walk]
    cases hstep : step sch v ws with
    | none =>
      rw [hstep] at hone
      rw [hone]
    | some r =>
      obtain ⟨rc, sch'⟩ := r
      rw [hstep] at hone
      obtain ⟨p, hadd, hp⟩ := hone
      rw [hadd]
      by_cases hrc : rc = 0
      · have hnext := ih sch' (pre ++ bs) hws
        rw [List.append_assoc] at hnext
        simp only [hp hrc, hrc, ne_eq, not_true_eq_false, if_false]
        exact hnext
      · simp only [ne_eq, hrc, not_false_eq_true, if_true]

/-- ... on any data that is an array. -/
theorem addRows_walk (h : Follows add step) (sch : TntSchema) {rows : List Value} {data : Bytes}
    (hdata : Encodes (.array rows) data) : addRows add sch data = walk step sch rows := by
  rw [← List.map_id rows] at hdata
  obtain ⟨head, body, hall, heq⟩ := @addRows_eq _ _ Value id add rows sch data hdata
  rw [List.map_id] at hall
  rw [heq, List.append_nil]
  exact addLoop_walk h sch head hall

omit [Msgpuck] in
/-- Where the steps are the same but for those that are undefined, so are the runs.  A run that is
defined has not met an undefined step, so it is the same run. -/
theorem walk_mono (h : ∀ sch v ws, step sch v ws = none ∨ step sch v ws = step' sch v ws)
    {sch : TntSchema} {rows : List Value} {r : Int × TntSchema}
    (hrun : walk step sch rows = some r) : walk step' sch rows = some r := by
  induction rows generalizing sch with
  | nil => exact hrun
  | cons v ws ih =>
    rw [walk] at hrun ⊢
    rcases h sch v ws with hnone | heq
    · rw [hnone] at hrun
      exact absurd hrun (by simp)
    · rw [← heq]
      split at hrun
      · exact absurd hrun (by simp)
      · split_ifs at hrun ⊢ with hrc
        · exact hrun
        · exact ih hrun

end Walk

/-! ## §5 — the tuples that stray. -/

/-- What `tnt_schema_add_space` wants: a number, anything, a name. -/
def spaceLabel : Value → Option Label
  | .array (.uint number :: _ :: .str name :: _) => some ⟨name, number % 2 ^ 32⟩
  | _ => none

/-- What `tnt_schema_add_index` wants: the number of a space, a number, a name. -/
def indexLabel : Value → Option (Nat × Label)
  | .array (.uint sid :: .uint number :: .str name :: _) =>
    some (sid % 2 ^ 32, ⟨name, number % 2 ^ 32⟩)
  | _ => none

/-- The data ends here, or goes on with a value of type `t`. -/
def EndsOr (t : Ty) (ws : List Value) : Prop := ∀ w ∈ ws.head?, w.ty = t

/-- The tuples of which `tnt_schema_add_space` reads more than there is, before the values `ws`. -/
def SpaceStrays : Value → List Value → Prop
  | .array [], ws => EndsOr .uint ws
  | .array [.uint _], _ => True
  | .array [.uint _, _], ws => EndsOr .str ws
  | _, _ => False

/-- The tuples of which `tnt_schema_add_index` does, and those with a space that is no number, which
it decodes as one; `known` are the numbers of the spaces that are there. -/
def IndexStrays (known : Nat → Prop) : Value → List Value → Prop
  | .array [.uint sid], ws => ws = [] ∨ (EndsOr .uint ws ∧ known (sid % 2 ^ 32))
  | .array [.uint sid, .uint _], ws => known (sid % 2 ^ 32) ∧ EndsOr .str ws
  | .array (.uint _ :: _), _ => False
  | .array _, _ => True
  | _, _ => False

omit [Msgpuck] in
/-- Where a reader has run out of fields, what comes next decides: it looks right, ... -/
theorem peek_of_endsOr {t : Ty} {ws : List Value} (h : EndsOr t ws) :
    peek t ws = .undef ∨ peek t ws = .ok () := by
  cases ws with
  | nil => exact .inl rfl
  | cons w ws =>
    refine .inr ?_
    rw [peek, if_neg (not_not_intro (h w rfl))]

omit [Msgpuck] in
/-- ... or ends the call. -/
theorem peek_of_not_endsOr {t : Ty} {ws : List Value} (h : ¬ EndsOr t ws) : peek t ws = .fail := by
  cases ws with
  | nil => exact absurd (fun w hw => by cases hw) h
  | cons w ws =>
    have hty : w.ty ≠ t := by
      intro hty
      refine h fun x hx => ?_
      obtain rfl := Option.some.inj hx
      exact hty
    rw [peek, if_pos hty]

section Reads

variable (alloc : Nat → Bool) {xs : List Value} (ws : List Value)

omit [Msgpuck] in
/-- After a number and one more value, the name decides. -/
theorem spaceRead_uint (number : Nat) (y : Value) : spaceRead alloc (.uint number :: y :: xs) ws =
    (do peek .str (xs ++ ws); let name ← takeName alloc xs; return ⟨name, number % 2 ^ 32⟩) := rfl

omit [Msgpuck] in
/-- A tuple with its fields is read, if there is memory for the name; ... -/
theorem spaceRead_of_label {l : Label} (h : spaceLabel (.array xs) = some l) :
    spaceRead alloc xs ws = if alloc l.name.length then .ok l else .fail := by
  unfold spaceLabel at h
  split at h
  · next number _ name _ heq =>
    cases heq
    obtain rfl := Option.some.inj h
    rw [spaceRead_uint]
    simp only [peek, takeName, List.cons_append, Value.ty, ne_eq, not_true_eq_false, if_false,
      Outcome.ok_bind]
    split_ifs <;> rfl
  · exact absurd h (by simp)

omit [Msgpuck] in
/-- Without the fields the reader strays or fails.  Which of the two it is depends on what stands
behind the tuple: if that looks right, the reader goes on into it. -/
theorem spaceRead_of_none (h : spaceLabel (.array xs) = none) :
    (SpaceStrays (.array xs) ws → spaceRead alloc xs ws = .undef) ∧
      (¬ SpaceStrays (.array xs) ws → spaceRead alloc xs ws = .fail) := by
  rcases xs with _ | ⟨x, xs⟩
  · -- no field at all: the type is looked at behind the tuple
    refine ⟨fun hs => ?_, fun hs => ?_⟩
    · rcases peek_of_endsOr hs with hp | hp <;> simp [spaceRead, hp, takeUint]
    · simp [spaceRead, peek_of_not_endsOr hs]
  by_cases hx : x.ty = .uint
  swap
  · -- the first field is no number
    have hread : spaceRead alloc (x :: xs) ws = .fail := by
      simp [spaceRead, peek, hx]
    refine ⟨fun hs => ?_, fun _ => hread⟩
    cases x <;> first | exact absurd rfl hx | exact hs.elim
  obtain ⟨number, rfl⟩ := Value.eq_uint_of_ty hx
  rcases xs with _ | ⟨y, xs⟩
  · -- only a number: the second field is skipped without a look at it
    exact ⟨fun _ => rfl, fun hs => absurd trivial hs⟩
  rw [spaceRead_uint]
  rcases xs with _ | ⟨z, xs⟩
  · -- two fields: the name is looked for behind the tuple
    rw [List.nil_append]
    refine ⟨fun hs => ?_, fun hs => ?_⟩
    · rcases peek_of_endsOr hs with hp | hp <;> rw [hp] <;> rfl
    · rw [peek_of_not_endsOr hs]
      rfl
  · -- the third field is there; were it a string, there would be a label
    have hz : z.ty ≠ .str := by
      intro hz
      obtain ⟨s, rfl⟩ := Value.eq_str_of_ty hz
      exact absurd h (by simp [spaceLabel])
    have hp : peek .str (z :: xs ++ ws) = .fail := if_pos hz
    refine ⟨fun hs => hs.elim, fun _ => ?_⟩
    rw [hp]
    rfl

omit [Msgpuck] in
/-- The part of `tnt_schema_add_index` that looks up the space, and what it reads then.  The second
field is looked at first, then the space is looked up, and only then are number and name read.  So a
tuple of an unknown space can be too short and do no harm. -/
theorem indexStep_uint (sch : TntSchema) (sid : Nat) :
    indexStep alloc ownTuple sch (.array (.uint sid :: xs)) ws =
      match peek .uint (xs ++ ws) with
      | .undef => none
      | .fail => some (-1, sch)
      | .ok _ =>
        match sch.spaceHash.find (le32 (sid % 2 ^ 32)) with
        | none => some (-1, sch)
        | some a =>
          match indexRead alloc xs ws with
          | .undef => none
          | .fail => some (-1, sch)
          | .ok l => some (0, sch.addIndex a l) := by
  have hread : sidRead (.uint sid :: xs) ws =
      (peek .uint (xs ++ ws) >>= fun _ => .ok (sid % 2 ^ 32, xs)) := rfl
  simp only [indexStep, ownTuple, hread]
  cases peek .uint (xs ++ ws) <;> rfl

/-- The numbers of the spaces of a schema. -/
def TntSchema.Knows (sch : TntSchema) (sid : Nat) : Prop :=
  (sch.spaceHash.find (le32 sid)).isSome

omit [Msgpuck] in
/-- ... an index needs its space as well. -/
theorem indexStep_of_label (sch : TntSchema) {sid : Nat} {l : Label}
    (h : indexLabel (.array xs) = some (sid, l)) :
    indexStep alloc ownTuple sch (.array xs) ws =
      match sch.spaceHash.find (le32 sid) with
      | none => some (-1, sch)
      | some a => if alloc l.name.length then some (0, sch.addIndex a l) else some (-1, sch) := by
  unfold indexLabel at h
  split at h
  · next sid' number name rest heq =>
    cases heq
    obtain ⟨rfl, rfl⟩ := Prod.mk.inj (Option.some.inj h)
    have hread : indexRead alloc (.uint number :: .str name :: rest) ws =
        (takeName alloc (.str name :: rest) >>= fun name => .ok ⟨name, number % 2 ^ 32⟩) := rfl
    have hp : peek .uint (.uint number :: .str name :: rest ++ ws) = .ok () := rfl
    rw [indexStep_uint, hp, hread]
    cases sch.spaceHash.find (le32 (sid' % 2 ^ 32)) with
    | none => rfl
    | some a =>
      simp only [takeName]
      split_ifs <;> rfl
  · exact absurd h (by simp)

omit [Msgpuck] in
/-- Without them it strays, or ends the call.  Field by field: the first that is missing or of the
wrong type decides, and where one is missing what comes behind the tuple is taken for it. -/
theorem indexStep_of_none (sch : TntSchema) (h : indexLabel (.array xs) = none) :
    (IndexStrays sch.Knows (.array xs) ws →
        indexStep alloc ownTuple sch (.array xs) ws = none) ∧
      (¬ IndexStrays sch.Knows (.array xs) ws →
        indexStep alloc ownTuple sch (.array xs) ws = some (-1, sch)) := by
  rcases xs with _ | ⟨x, xs⟩
  · exact ⟨fun _ => rfl, fun hs => absurd trivial hs⟩
  by_cases hx : x.ty = .uint
  swap
  · have hs : IndexStrays sch.Knows (.array (x :: xs)) ws := by
      cases x <;> first | exact trivial | exact absurd rfl hx
    have hstep : indexStep alloc ownTuple sch (.array (x :: xs)) ws = none := by
      cases x <;> first | rfl | exact absurd rfl hx
    exact ⟨fun _ => hstep, fun hn => absurd hs hn⟩
  obtain ⟨sid, rfl⟩ := Value.eq_uint_of_ty hx
  rw [indexStep_uint]
  have hknows : sch.Knows (sid % 2 ^ 32) ↔
      ∃ a, sch.spaceHash.find (le32 (sid % 2 ^ 32)) = some a := Option.isSome_iff_exists
  rcases xs with _ | ⟨y, xs⟩
  · -- the number of the index is looked for behind the tuple
    rw [List.nil_append]
    refine ⟨fun hs => ?_, fun hs => ?_⟩
    · rcases hs with rfl | ⟨hends, hk⟩
      · rfl
      · obtain ⟨a, ha⟩ := hknows.mp hk
        rcases peek_of_endsOr hends with hp | hp <;> simp only [hp, ha]
        simp only [indexRead, List.nil_append, hp, Outcome.ok_bind, takeUint, Outcome.undef_bind]
    · obtain ⟨hne, hnot⟩ := not_or.mp hs
      by_cases hends : EndsOr .uint ws
      · have hfind : sch.spaceHash.find (le32 (sid % 2 ^ 32)) = none := by
          by_contra hsome
          exact hnot ⟨hends, Option.isSome_iff_ne_none.mpr hsome⟩
        rcases peek_of_endsOr hends with hp | hp
        · cases ws with
          | nil => exact absurd rfl hne
          | cons w ws => simp only [peek] at hp; split_ifs at hp
        · simp only [hp, hfind]
      · rw [peek_of_not_endsOr hends]
  by_cases hy : y.ty = .uint
  swap
  · -- the second element is there, and no number: the check of its type finds it
    have hp : peek .uint (y :: xs ++ ws) = .fail := if_pos hy
    rw [hp]
    refine ⟨fun hs => ?_, fun _ => rfl⟩
    cases y <;> cases xs <;> first | exact absurd rfl hy | exact hs.elim
  obtain ⟨number, rfl⟩ := Value.eq_uint_of_ty hy
  have hp : peek .uint (.uint number :: xs ++ ws) = .ok () := rfl
  have hread : indexRead alloc (.uint number :: xs) ws =
      (do peek .str (xs ++ ws); let name ← takeName alloc xs; return ⟨name, number % 2 ^ 32⟩) := rfl
  rw [hp, hread]
  rcases xs with _ | ⟨z, xs⟩
  · -- the name is looked for behind the tuple
    rw [List.nil_append]
    refine ⟨fun hs => ?_, fun hs => ?_⟩
    · obtain ⟨hk, hends⟩ := hs
      obtain ⟨a, ha⟩ := hknows.mp hk
      rcases peek_of_endsOr hends with hp | hp <;> simp only [hp, ha] <;> rfl
    · cases hfind : sch.spaceHash.find (le32 (sid % 2 ^ 32)) with
      | none => rfl
      | some a =>
        have hends : ¬ EndsOr .str ws := fun hends => hs ⟨hknows.mpr ⟨a, hfind⟩, hends⟩
        simp only [peek_of_not_endsOr hends, Outcome.fail_bind]
  · -- the third element is there; were it a string, there would be a label
    have hz : z.ty ≠ .str := by
      intro hz
      obtain ⟨s, rfl⟩ := Value.eq_str_of_ty hz
      exact absurd h (by simp [indexLabel])
    have hstr : peek .str (z :: xs ++ ws) = .fail := if_pos hz
    refine ⟨fun hs => hs.elim, fun _ => ?_⟩
    rw [hstr]
    cases sch.spaceHash.find (le32 (sid % 2 ^ 32)) <;> rfl

end Reads

/-! ## §6 — within the tuples. -/

/-- The spaces are such that no tuple strays before the first that ends the call. -/
def SpacesGood (alloc : Nat → Bool) : List Value → Prop
  | [] => True
  | v :: ws =>
    match spaceLabel v with
    | some l => alloc l.name.length → SpacesGood alloc ws
    | none => ¬ SpaceStrays v ws

/-- The indexes are. -/
def IndexesGood (alloc : Nat → Bool) (known : Nat → Prop) : List Value → Prop
  | [] => True
  | v :: ws =>
    match indexLabel v with
    | some (sid, l) => known sid → alloc l.name.length → IndexesGood alloc known ws
    | none => ¬ IndexStrays known v ws

/-- A call keeps within its tuples: it ends also when each tuple is read behind its fence, with the
same result; and that is -1 if a tuple lacks its fields.  `fenced` is the code `add` with a fence.
-/
def KeepsWithin (fenced : Fence → TntSchema → Bytes → Nat → Option (Int × TntSchema × Nat))
    (add : TntSchema → Bytes → Nat → Option (Int × TntSchema × Nat)) (fields : Value → Bool)
    (sch : TntSchema) (rows : List Value) (data : Bytes) : Prop :=
  ∃ rc sch', addRows (fenced Fence.tuple) sch data = some (rc, sch') ∧
    addRows add sch data = some (rc, sch') ∧
    ((∃ v ∈ rows, fields v = false) → rc = -1)

section Main

variable {alloc : Nat → Bool}

omit [Msgpuck] in
/-- The fence makes a step undefined or leaves it alone, for spaces ... -/
theorem spaceStep_mono (sch : TntSchema) (v : Value) (ws : List Value) :
    spaceStep alloc ownTuple sch v ws = none ∨
      spaceStep alloc ownTuple sch v ws = spaceStep alloc ownAll sch v ws := by
  cases v with
  | array xs =>
    simp only [spaceStep, ownTuple, ownAll]
    rcases spaceRead_below alloc xs ws with hx | hx
    · rw [hx]
      exact .inl rfl
    · rw [hx]
      exact .inr rfl
  | _ => exact .inr rfl

omit [Msgpuck] in
/-- ... and indexes. -/
theorem indexStep_mono (sch : TntSchema) (v : Value) (ws : List Value) :
    indexStep alloc ownTuple sch v ws = none ∨
      indexStep alloc ownTuple sch v ws = indexStep alloc ownAll sch v ws := by
  cases v with
  | array xs =>
    simp only [indexStep, ownTuple, ownAll]
    rcases sidRead_below xs ws with hx | ⟨hx, hy⟩ | ⟨sid, rest, hx, hy⟩
    · rw [hx]
      exact .inl rfl
    · rw [hx, hy]
      exact .inr rfl
    · simp only [hx, hy]
      cases sch.spaceHash.find (le32 sid) with
      | none => exact .inr rfl
      | some a => rcases indexRead_below alloc rest ws with hz | hz <;> simp [hz]
  | _ => exact .inr rfl

/-- A run on values ends, with -1 if a value lacks its fields. -/
def Ends (step : TntSchema → Value → List Value → Option (Int × TntSchema)) (fields : Value → Bool)
    (sch : TntSchema) (rows : List Value) : Prop :=
  ∃ rc sch', walk step sch rows = some (rc, sch') ∧ ((∃ v ∈ rows, fields v = false) → rc = -1)

section Ends

variable {step : TntSchema → Value → List Value → Option (Int × TntSchema)} {fields : Value → Bool}
  {sch sch' : TntSchema} {v : Value} {ws : List Value}

omit [Msgpuck] in
/-- How a run ends: not, behind an undefined step; ... -/
theorem not_ends_of_none (h : step sch v ws = none) : ¬ Ends step fields sch (v :: ws) := by
  rintro ⟨rc, sch', hrun, -⟩
  rw [walk, h] at hrun
  exact absurd hrun (by simp)

omit [Msgpuck] in
/-- ... at once, behind a failure; ... -/
theorem ends_of_fail (h : step sch v ws = some (-1, sch')) : Ends step fields sch (v :: ws) := by
  refine ⟨-1, sch', ?_, fun _ => rfl⟩
  rw [walk, h]
  rfl

omit [Msgpuck] in
/-- ... and else as the rest of it does. -/
theorem ends_cons_iff (h : step sch v ws = some (0, sch')) (hv : fields v = true) :
    Ends step fields sch (v :: ws) ↔ Ends step fields sch' ws := by
  have hwalk : walk step sch (v :: ws) = walk step sch' ws := by
    rw [walk, h]
    rfl
  rw [Ends, Ends, hwalk]
  simp only [List.exists_mem_cons_iff, hv, Bool.true_eq_false, false_or]

end Ends

omit [Msgpuck] in
/-- The run over spaces, each behind its fence.  By induction on the rows, with the schema as it
grows; the condition on the rows does not mention it. -/
theorem walk_spaces (sch : TntSchema) (rows : List Value) :
    Ends (spaceStep alloc ownTuple) (fun v => (spaceLabel v).isSome) sch rows ↔
      SpacesGood alloc rows := by
  induction rows generalizing sch with
  | nil => exact ⟨fun _ => trivial, fun _ => ⟨0, sch, rfl, by simp⟩⟩
  | cons v ws ih =>
    rw [SpacesGood]
    by_cases hty : v.ty = .array
    swap
    · -- no tuple
      have hstep : spaceStep alloc ownTuple sch v ws = some (-1, sch) := by
        cases v <;> first | rfl | exact absurd rfl hty
      cases v <;> first
        | exact absurd rfl hty
        | exact ⟨fun _ hs => hs.elim, fun _ => ends_of_fail hstep⟩
    obtain ⟨xs, rfl⟩ := Value.eq_array_of_ty hty
    cases hl : spaceLabel (.array xs) with
    | none =>
      obtain ⟨hstrays, hfails⟩ := spaceRead_of_none alloc ws hl
      by_cases hs : SpaceStrays (.array xs) ws
      · have hstep : spaceStep alloc ownTuple sch (.array xs) ws = none := by
          simp only [spaceStep, ownTuple, hstrays hs]
        exact ⟨fun h => absurd h (not_ends_of_none hstep), fun h => absurd hs h⟩
      · have hstep : spaceStep alloc ownTuple sch (.array xs) ws = some (-1, sch) := by
          simp only [spaceStep, ownTuple, hfails hs]
        exact ⟨fun _ => hs, fun _ => ends_of_fail hstep⟩
    | some l =>
      have hread := spaceRead_of_label alloc ws hl
      by_cases ha : alloc l.name.length = true
      · have hstep : spaceStep alloc ownTuple sch (.array xs) ws = some (0, sch.addSpace l) := by
          simp only [spaceStep, ownTuple, hread, if_pos ha]
        -- the space is added, and the walk goes on
        rw [ends_cons_iff hstep (by rw [hl]; rfl), ih]
        exact ⟨fun h _ => h, fun h => h ha⟩
      · have hstep : spaceStep alloc ownTuple sch (.array xs) ws = some (-1, sch) := by
          simp only [spaceStep, ownTuple, hread, if_neg ha]
        exact ⟨fun _ h => absurd h ha, fun _ => ends_of_fail hstep⟩

omit [Msgpuck] in
/-- The run over indexes; none of them changes which spaces there are.  By induction on the rows.
The condition depends on the spaces there are, and these are the same at every row. -/
theorem walk_indexes (sch : TntSchema) (rows : List Value) :
    Ends (indexStep alloc ownTuple) (fun v => (indexLabel v).isSome) sch rows ↔
      IndexesGood alloc sch.Knows rows := by
  induction rows generalizing sch with
  | nil => exact ⟨fun _ => trivial, fun _ => ⟨0, sch, rfl, by simp⟩⟩
  | cons v ws ih =>
    rw [IndexesGood]
    by_cases hty : v.ty = .array
    swap
    · -- no tuple
      have hstep : indexStep alloc ownTuple sch v ws = some (-1, sch) := by
        cases v <;> first | rfl | exact absurd rfl hty
      cases v <;> first
        | exact absurd rfl hty
        | exact ⟨fun _ hs => hs.elim, fun _ => ends_of_fail hstep⟩
    obtain ⟨xs, rfl⟩ := Value.eq_array_of_ty hty
    cases hl : indexLabel (.array xs) with
    | none =>
      obtain ⟨hstrays, hfails⟩ := indexStep_of_none alloc ws sch hl
      by_cases hs : IndexStrays sch.Knows (.array xs) ws
      · exact ⟨fun h => absurd h (not_ends_of_none (hstrays hs)), fun h => absurd hs h⟩
      · exact ⟨fun _ => hs, fun _ => ends_of_fail (hfails hs)⟩
    | some r =>
      obtain ⟨sid, l⟩ := r
      have hstep := indexStep_of_label alloc ws sch hl
      cases hfind : sch.spaceHash.find (le32 sid) with
      | none =>
        rw [hfind] at hstep
        -- the index of a space that is not there ends the call
        have hnot : ¬ sch.Knows sid := by simp [TntSchema.Knows, hfind]
        exact ⟨fun _ h => absurd h hnot, fun _ => ends_of_fail hstep⟩
      | some a =>
        have hknows : sch.Knows sid := by simp [TntSchema.Knows, hfind]
        simp only [hfind] at hstep
        by_cases ha : alloc l.name.length = true
        · rw [if_pos ha] at hstep
          rw [ends_cons_iff hstep (by rw [hl]; rfl), ih]
          exact ⟨fun h _ _ => h, fun h => h hknows ha⟩
        · rw [if_neg ha] at hstep
          exact ⟨fun _ _ h => absurd h ha, fun _ => ends_of_fail hstep⟩

/-- To keep within the tuples is a matter of the walk.  From here on there are no bytes: both sides
are runs over the rows, one with each fence. -/
theorem keepsWithin_iff_walk
    {fenced : Fence → TntSchema → Bytes → Nat → Option (Int × TntSchema × Nat)}
    {add : TntSchema → Bytes → Nat → Option (Int × TntSchema × Nat)}
    {step step' : TntSchema → Value → List Value → Option (Int × TntSchema)}
    {fields : Value → Bool} (htuple : Follows (fenced Fence.tuple) step)
    (hwhole : Follows add step')
    (hmono : ∀ sch v ws, step sch v ws = none ∨ step sch v ws = step' sch v ws) (sch : TntSchema)
    {rows : List Value} {data : Bytes} (hdata : Encodes (.array rows) data) :
    KeepsWithin fenced add fields sch rows data ↔ Ends step fields sch rows := by
  rw [KeepsWithin, addRows_walk htuple sch hdata, addRows_walk hwhole sch hdata]
  refine ⟨?_, ?_⟩
  · rintro ⟨rc, sch', hrun, -, hrc⟩
    exact ⟨rc, sch', hrun, hrc⟩
  · rintro ⟨rc, sch', hrun, hrc⟩
    exact ⟨rc, sch', hrun, walk_mono hmono hrun, hrc⟩

/-- **`tnt_schema_add_spaces` and `tnt_schema_add_indexes` keep within the tuples of a reply if and
only if none of the tuples they come to strays.**  The condition is on the tuples alone, and on the
spaces of the schema as far as they decide where a call ends: a tuple behind the one that ends it
may be anything. -/
theorem tntSchemaAdd_within_iff (alloc : Nat → Bool) (sch : TntSchema) {rows : List Value}
    {data : Bytes} (hdata : Encodes (.array rows) data) :
    (KeepsWithin (fencedAddSpace alloc) (tntSchemaAddSpace alloc)
        (fun v => (spaceLabel v).isSome) sch rows data ↔ SpacesGood alloc rows) ∧
      (KeepsWithin (fencedAddIndex alloc) (tntSchemaAddIndex alloc)
        (fun v => (indexLabel v).isSome) sch rows data ↔ IndexesGood alloc sch.Knows rows) := by
  have hspaces := fencedAddSpace_follows alloc gives_whole
  rw [fencedAddSpace_whole] at hspaces
  have hindexes := fencedAddIndex_follows alloc gives_whole
  rw [fencedAddIndex_whole] at hindexes
  constructor
  · rw [keepsWithin_iff_walk (fencedAddSpace_follows alloc gives_tuple) hspaces spaceStep_mono sch
      hdata]
    exact walk_spaces sch rows
  · rw [keepsWithin_iff_walk (fencedAddIndex_follows alloc gives_tuple) hindexes indexStep_mono sch
      hdata]
    exact walk_indexes sch rows

end Main

end Code

/-! A tuple with its three fields; and the empty tuple, for which `tnt_schema_add_space` looks behind
the data, and a name where `tnt_schema_add_index` decodes the number of a space. -/

/-- A reply of a space and one of an index, ... -/
theorem tntSchemaAdd_within_test :
    @KeepsWithin Msgpuck.reference (@fencedAddSpace Msgpuck.reference customRealloc)
        (@tntSchemaAddSpace Msgpuck.reference customRealloc) (fun v => (spaceLabel v).isSome)
        tntSchemaNew [testSpace.value] (encode (.array [testSpace.value])) ∧
      @KeepsWithin Msgpuck.reference (@fencedAddIndex Msgpuck.reference customRealloc)
        (@tntSchemaAddIndex Msgpuck.reference customRealloc) (fun v => (indexLabel v).isSome)
        (tntSchemaNew.addSpace testSpace.label) [testIndex.value]
        (encode (.array [testIndex.value])) := by
  constructor
  · apply (@tntSchemaAdd_within_iff Msgpuck.reference customRealloc tntSchemaNew _ _
      testSpace_encodes).1.mpr
    exact fun _ => trivial
  · apply (@tntSchemaAdd_within_iff Msgpuck.reference customRealloc
      (tntSchemaNew.addSpace testSpace.label) _ _ testIndex_encodes).2.mpr
    exact fun _ _ => trivial

/-- ... and a reply whose only tuple is empty. -/
theorem tntSchemaAddSpaces_looks_behind :
    @tntSchemaAddSpaces Msgpuck.reference customRealloc tntSchemaNew [0x91, 0x90] = none ∧
      ¬ @KeepsWithin Msgpuck.reference (@fencedAddSpace Msgpuck.reference customRealloc)
        (@tntSchemaAddSpace Msgpuck.reference customRealloc) (fun v => (spaceLabel v).isSome)
        tntSchemaNew [.array []] [0x91, 0x90] ∧
      @tntSchemaAddIndexes Msgpuck.reference customRealloc tntSchemaNew
        [0x91, 0x91, 0xa1, 0x61] = none := by
  have hnone : @tntSchemaAddSpaces Msgpuck.reference customRealloc tntSchemaNew [0x91, 0x90] =
      none := by
    decide +kernel
  refine ⟨hnone, ?_, by decide +kernel⟩
  rintro ⟨rc, sch', -, hrun, -⟩
  exact absurd (hnone.symm.trans hrun) (by simp)

end TarantoolC.Schema
