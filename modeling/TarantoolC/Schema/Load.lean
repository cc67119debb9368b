/-
# TarantoolC.Schema.Load — reading the schema out of replies (`tnt/tnt_schema.c`).

The data of a reply to a select from `_vspace` or `_vindex` is an array of tuples.  Of a tuple the
client reads the first three fields: number, (owner), name of a space; number of a space, number and
name of an index.  It walks one pointer through the array and another through the tuple, and it
never looks at how long the tuple is.

Both readers copy the name into a block of its length, and a row whose name gets no block is refused.
This is not only a matter of memory.  `tnt_mem_alloc` with the allocator that the library comes with
(`custom_realloc`) is `NULL` for the size 0, so a row with the EMPTY name is refused on every machine.
A row that is refused ends the load: no row behind it is looked at.  `alloc` is a parameter here (an
application may bring its own with `tnt_mem_init`), and `customRealloc` is the one of the library.
There is memory for everything else: the records, their nodes and the hashes of indexes.

`tntSchemaAddSpaces_spec` and `tntSchemaAddIndexes_spec` say which rows of a reply get in: those before
the first that is refused, for its name or, if it is an index, for its space.

## Bytes first, then values

The readers are written over bytes and offsets, as the code has them, and the results are about
rows.  In between stand lemmas of one shape: at the front of the encoding of a value, behind any
bytes and before any others, a reader yields the value and stands behind it (`copyNameAt_front`,
`spaceFields_front`, `indexFields_front`).  Over them `Adds` says what one call of `add` does with a
row, and `addLoop_spec` is the induction over the rows, stated once for both kinds.

§4 needs none of that: it says of ANY bytes that the records a hash points to are there.  This is
what lookups rest on when data is not a server's.
-/
import TarantoolC.Cursor
import TarantoolC.Schema.Table

namespace TarantoolC.Schema

open MsgPack Msgpuck

section Code

variable [Msgpuck]

/-! ## §1 — the code. -/

/-- `mp_decode_str(&tuple, &len)` and a copy of the bytes. -/
def copyStrAt (buf : Bytes) (p : Nat) : Outcome Bytes := do
  let (first, last) ← decodeStrAt buf p
  if buf.length < last then .undef else .ok ((buf.drop first).take (last - first))

/-- `mp_decode_str` and the copy, into a block from `tnt_mem_alloc`; without one, `goto error`. -/
def copyNameAt (alloc : Nat → Bool) (buf : Bytes) (tuple : Nat) : Outcome Bytes := do
  let name ← copyStrAt buf tuple
  if alloc name.length then .ok name else .fail

/-- The fields `tnt_schema_add_space` reads at `tuple`, the second being skipped.  Numbers are
`uint32_t`. -/
def spaceFields (alloc : Nat → Bool) (buf : Bytes) (tuple : Nat) : Outcome Label := do
  expectType buf tuple .array
  let (_, tuple) ← decodeArrayAt buf tuple
  expectType buf tuple .uint
  let (number, tuple) ← decodeUintAt buf tuple
  let tuple ← nextAt buf tuple
  expectType buf tuple .str
  let name ← copyNameAt alloc buf tuple
  return ⟨name, number % 2 ^ 32⟩

/-- What `tnt_schema_add_index` reads before it looks up the space; the type of the first field is
not looked at, that of the second is. -/
def indexSpace (buf : Bytes) (tuple : Nat) : Outcome (Nat × Nat) := do
  expectType buf tuple .array
  let (_, tuple) ← decodeArrayAt buf tuple
  let (sid, tuple) ← decodeUintAt buf tuple
  expectType buf tuple .uint
  return (sid % 2 ^ 32, tuple)

/-- What it reads after that. -/
def indexFields (alloc : Nat → Bool) (buf : Bytes) (tuple : Nat) : Outcome Label := do
  expectType buf tuple .uint
  let (number, tuple) ← decodeUintAt buf tuple
  expectType buf tuple .str
  let name ← copyNameAt alloc buf tuple
  return ⟨name, number % 2 ^ 32⟩

/-- The end of both functions: `mp_next(data)`, and the result.  A schema is of any type `σ`, here
and in the loops below: `TarantoolC.Schema.Flush` has another model of it. -/
def finish {σ : Type} (buf : Bytes) (data : Nat) (rc : Int) (sch : σ) : Option (Int × σ × Nat) :=
  match nextAt buf data with
  | .ok q => some (rc, sch, q)
  | _ => none

/-- `tnt_schema_add_space`: the result, the schema, `*data`. -/
def tntSchemaAddSpace (alloc : Nat → Bool) (sch : TntSchema) (buf : Bytes) (data : Nat) :
    Option (Int × TntSchema × Nat) :=
  match spaceFields alloc buf data with
  | .undef => none
  | .fail => finish buf data (-1) sch
  | .ok l => finish buf data 0 (sch.addSpace l)

/-- `tnt_schema_add_index`.  Without a space it returns at once and leaves `*data` where it is. -/
def tntSchemaAddIndex (alloc : Nat → Bool) (sch : TntSchema) (buf : Bytes) (data : Nat) :
    Option (Int × TntSchema × Nat) :=
  match indexSpace buf data with
  | .undef => none
  | .fail => finish buf data (-1) sch
  | .ok (sid, tuple) =>
    match sch.spaceHash.find (le32 sid) with
    | none => some (-1, sch, data)
    | some a =>
      match indexFields alloc buf tuple with
      | .undef => none
      | .fail => finish buf data (-1) sch
      | .ok l => finish buf data 0 (sch.addIndex a l)

/-- The loop of `tnt_schema_add_spaces` and of `tnt_schema_add_indexes`, over what `add` adds. -/
def addLoop {σ : Type} (add : σ → Bytes → Nat → Option (Int × σ × Nat)) (buf : Bytes) :
    Nat → Nat → σ → Option (Int × σ)
  | 0, _, sch => some (0, sch)
  | n + 1, p, sch =>
    match add sch buf p with
    | none => none
    | some (rc, sch, p) => if rc ≠ 0 then some (-1, sch) else addLoop add buf n p sch

/-- Both functions, on the data of a reply (no bytes for a `NULL` pointer). -/
def addRows {σ : Type} (add : σ → Bytes → Nat → Option (Int × σ × Nat)) (sch : σ) (data : Bytes) :
    Option (Int × σ) :=
  match mpCheck data with
  | none => some (-1, sch)
  | some _ =>
    match (do expectType data 0 .array; decodeArrayAt data 0 : Outcome (Nat × Nat)) with
    | .undef => none
    | .fail => some (-1, sch)
    | .ok (n, p) => addLoop add data n p sch

/-- `tnt_schema_add_spaces`. -/
def tntSchemaAddSpaces (alloc : Nat → Bool) (sch : TntSchema) (data : Bytes) :
    Option (Int × TntSchema) :=
  addRows (tntSchemaAddSpace alloc) sch data

/-- `tnt_schema_add_indexes`. -/
def tntSchemaAddIndexes (alloc : Nat → Bool) (sch : TntSchema) (data : Bytes) :
    Option (Int × TntSchema) :=
  addRows (tntSchemaAddIndex alloc) sch data

end Code

/-- `custom_realloc(NULL, size)` (`tnt/tnt_mem.c`), as long as there is memory. -/
def customRealloc (size : Nat) : Bool := size != 0

/-! ## §2 — rows of the format. -/

/-- A tuple of `_vspace`. -/
structure SpaceRow where
  label : Label
  owner : Value
  rest : List Value

def SpaceRow.value (r : SpaceRow) : Value :=
  .array (.uint r.label.number :: r.owner :: .str r.label.name :: r.rest)

/-- A label with its number as a `uint32_t`. -/
def Label.narrow (l : Label) : Label := { l with number := l.number % 2 ^ 32 }

/-- A tuple of `_vindex`. -/
structure IndexRow where
  sid : Nat
  label : Label
  rest : List Value

def IndexRow.value (r : IndexRow) : Value :=
  .array (.uint r.sid :: .uint r.label.number :: .str r.label.name :: r.rest)

section Spec

variable [Msgpuck]

/-- The readers, before a value of the format: the header of an array, ... -/
theorem decodeArrayAt_front (pre rest : Bytes) {b : UInt8} {l : Len} {n : Nat} {ds : Bytes}
    (hlead : lead b = .array l) (hl : l.Holds n ds) :
    decodeArrayAt (pre ++ (b :: ds ++ rest)) pre.length = .ok (n, (pre ++ b :: ds).length) := by
  have hd : mpDecodeArray (b :: ds ++ rest) = some (n, (b :: ds).length) := by
    rw [mpDecodeArray_iff]
    exact ⟨b, l, ds, rest, rfl, hlead, hl, by simp; omega⟩
  rw [decodeArrayAt, List.drop_left, hd, List.length_append]
  rfl

/-- ... a text, ... -/
theorem copyStrAt_front (pre rest : Bytes) {s bs : Bytes} (h : Encodes (.str s) bs) :
    copyStrAt (pre ++ (bs ++ rest)) pre.length = .ok s := by
  have hdec := decodeStrAt_front pre rest h
  cases h with
  | @str b l _ ds hlead hl =>
    have hlen : (pre ++ b :: (ds ++ s)).length = (pre ++ b :: ds).length + s.length := by
      simp only [List.length_append, List.length_cons]
      omega
    have hfirst : (pre ++ b :: (ds ++ s)).length - s.length = (pre ++ b :: ds).length := by omega
    have hmem : pre ++ (b :: (ds ++ s) ++ rest) = (pre ++ b :: ds) ++ (s ++ rest) := by simp
    have hin : ¬ (pre ++ (b :: (ds ++ s) ++ rest)).length < (pre ++ b :: (ds ++ s)).length := by
      simp only [List.length_append, List.length_cons]
      omega
    rw [copyStrAt, hdec]
    simp only [Outcome.ok_bind, if_neg hin, hfirst]
    rw [hmem, List.drop_left, hlen, Nat.add_sub_cancel_left, List.take_left]

/-- The three fields of a tuple that begins with `x, y, z`, as far as the pointers go. -/
theorem tuple_fields {x y z : Value} {rest : List Value} {bs : Bytes}
    (h : Encodes (.array (x :: y :: z :: rest)) bs) :
    ∃ head b₁ b₂ b₃ tail, bs = head ++ (b₁ ++ (b₂ ++ (b₃ ++ tail))) ∧
      Encodes x b₁ ∧ Encodes y b₂ ∧ Encodes z b₃ ∧
      ∀ pre post n, n = (x :: y :: z :: rest).length →
        decodeArrayAt (pre ++ (bs ++ post)) pre.length = .ok (n, (pre ++ head).length) := by
  obtain ⟨b, l, ds, body, rfl, hlead, hl, hall⟩ := h.array_cases
  obtain ⟨b₁, c₁, rfl, hx, hall⟩ := hall.cons_cases
  obtain ⟨b₂, c₂, rfl, hy, hall⟩ := hall.cons_cases
  obtain ⟨b₃, c₃, rfl, hz, hall⟩ := hall.cons_cases
  refine ⟨b :: ds, b₁, b₂, b₃, c₃, rfl, hx, hy, hz, ?_⟩
  intro pre post n hn
  rw [hn, List.append_assoc]
  exact decodeArrayAt_front pre _ hlead hl

/-- ... a name, for which there has to be memory, ... -/
theorem copyNameAt_front (alloc : Nat → Bool) (pre rest : Bytes) {s bs : Bytes}
    (h : Encodes (.str s) bs) :
    copyNameAt alloc (pre ++ (bs ++ rest)) pre.length =
      if alloc s.length then .ok s else .fail := by
  rw [copyNameAt, copyStrAt_front pre rest h]
  rfl

/-- **A space tuple is read**, if there is memory for the name. -/
theorem spaceFields_front (alloc : Nat → Bool) (pre post : Bytes) {r : SpaceRow} {bs : Bytes}
    (h : Encodes r.value bs) :
    spaceFields alloc (pre ++ (bs ++ post)) pre.length =
      if alloc r.label.name.length then .ok r.label.narrow else .fail := by
  have htype := expectType_front pre post h
  obtain ⟨head, b₁, b₂, b₃, tail, rfl, h₁, h₂, h₃, harr⟩ := tuple_fields h
  have hdec := harr pre post _ rfl
  -- the memory, seen from each of the fields
  have hm₁ : pre ++ (head ++ (b₁ ++ (b₂ ++ (b₃ ++ tail))) ++ post) =
      (pre ++ head) ++ (b₁ ++ (b₂ ++ (b₃ ++ tail) ++ post)) := by simp
  have hm₂ : (pre ++ head) ++ (b₁ ++ (b₂ ++ (b₃ ++ tail) ++ post)) =
      ((pre ++ head) ++ b₁) ++ (b₂ ++ ((b₃ ++ tail) ++ post)) := by simp
  have hm₃ : ((pre ++ head) ++ b₁) ++ (b₂ ++ ((b₃ ++ tail) ++ post)) =
      (((pre ++ head) ++ b₁) ++ b₂) ++ (b₃ ++ (tail ++ post)) := by simp
  have ht₁ := expectType_front (pre ++ head) (b₂ ++ (b₃ ++ tail) ++ post) h₁
  have hd₁ := decodeUintAt_front (pre ++ head) (b₂ ++ (b₃ ++ tail) ++ post) h₁
  have hn₂ := nextAt_front ((pre ++ head) ++ b₁) ((b₃ ++ tail) ++ post) h₂
  have ht₃ := expectType_front (((pre ++ head) ++ b₁) ++ b₂) (tail ++ post) h₃
  have hc₃ := copyNameAt_front alloc (((pre ++ head) ++ b₁) ++ b₂) (tail ++ post) h₃
  rw [← hm₁] at ht₁ hd₁
  rw [← hm₂, ← hm₁] at hn₂
  rw [← hm₃, ← hm₂, ← hm₁] at ht₃ hc₃
  simp only [Value.ty] at ht₁ ht₃
  simp only [SpaceRow.value, Value.ty] at htype
  simp only [spaceFields, htype, hdec, Outcome.ok_bind, ht₁, hd₁, hn₂, ht₃, hc₃, Outcome.pure_eq]
  split_ifs <;> rfl

/-- **An index tuple is read.** -/
theorem indexFields_front (alloc : Nat → Bool) (pre post : Bytes) {r : IndexRow} {bs : Bytes}
    (h : Encodes r.value bs) :
    ∃ tuple, indexSpace (pre ++ (bs ++ post)) pre.length = .ok (r.sid % 2 ^ 32, tuple) ∧
      indexFields alloc (pre ++ (bs ++ post)) tuple =
        if alloc r.label.name.length then .ok r.label.narrow else .fail := by
  have htype := expectType_front pre post h
  obtain ⟨head, b₁, b₂, b₃, tail, rfl, h₁, h₂, h₃, harr⟩ := tuple_fields h
  have hdec := harr pre post _ rfl
  -- the same memory, cut before each of the three fields in turn
  have hm₁ : pre ++ (head ++ (b₁ ++ (b₂ ++ (b₃ ++ tail))) ++ post) =
      (pre ++ head) ++ (b₁ ++ (b₂ ++ (b₃ ++ tail) ++ post)) := by simp
  have hm₂ : (pre ++ head) ++ (b₁ ++ (b₂ ++ (b₃ ++ tail) ++ post)) =
      ((pre ++ head) ++ b₁) ++ (b₂ ++ ((b₃ ++ tail) ++ post)) := by simp
  have hm₃ : ((pre ++ head) ++ b₁) ++ (b₂ ++ ((b₃ ++ tail) ++ post)) =
      (((pre ++ head) ++ b₁) ++ b₂) ++ (b₃ ++ (tail ++ post)) := by simp
  have hd₁ := decodeUintAt_front (pre ++ head) (b₂ ++ (b₃ ++ tail) ++ post) h₁
  have ht₂ := expectType_front ((pre ++ head) ++ b₁) ((b₃ ++ tail) ++ post) h₂
  have hd₂ := decodeUintAt_front ((pre ++ head) ++ b₁) ((b₃ ++ tail) ++ post) h₂
  have ht₃ := expectType_front (((pre ++ head) ++ b₁) ++ b₂) (tail ++ post) h₃
  have hc₃ := copyNameAt_front alloc (((pre ++ head) ++ b₁) ++ b₂) (tail ++ post) h₃
  -- what each decoder says of its own cut is carried back to the whole memory
  rw [← hm₁] at hd₁
  rw [← hm₂, ← hm₁] at ht₂ hd₂
  rw [← hm₃, ← hm₂, ← hm₁] at ht₃ hc₃
  simp only [Value.ty] at ht₂ ht₃
  simp only [IndexRow.value, Value.ty] at htype
  refine ⟨((pre ++ head) ++ b₁).length, ?_, ?_⟩
  · simp only [indexSpace, htype, hdec, Outcome.ok_bind, hd₁, ht₂, Outcome.pure_eq]
  · simp only [indexFields, ht₂, hd₂, Outcome.ok_bind, ht₃, hc₃, Outcome.pure_eq]
    split_ifs <;> rfl

/-- ... and the end, which steps over the whole row. -/
theorem finish_front {σ : Type} (pre post : Bytes) {v : Value} {bs : Bytes} (h : Encodes v bs)
    (rc : Int) (sch : σ) :
    finish (pre ++ (bs ++ post)) pre.length rc sch = some (rc, sch, (pre ++ bs).length) := by
  rw [finish, nextAt_front pre post h]

/-! ## §3 — all rows. -/

section Rows

variable {σ R : Type} {value : R → Value} {add : σ → Bytes → Nat → Option (Int × σ × Nat)}
  {ok : R → Bool} {f : σ → R → σ} {P : σ → Prop} {rows : List R}

/-- What `add` does with a row, under an invariant of the schema: it adds it and goes on behind it,
or refuses it and leaves the schema alone. -/
def Adds (value : R → Value) (add : σ → Bytes → Nat → Option (Int × σ × Nat)) (ok : R → Bool)
    (f : σ → R → σ) (P : σ → Prop) (r : R) : Prop :=
  ∀ sch pre post bs, P sch → Encodes (value r) bs →
    (ok r = true → P (f sch r) ∧
      add sch (pre ++ (bs ++ post)) pre.length = some (0, f sch r, (pre ++ bs).length)) ∧
    (ok r = false → ∃ p, add sch (pre ++ (bs ++ post)) pre.length = some (-1, sch, p))

omit [Msgpuck] in
/-- **The loop over rows**: it adds those before the first that is refused, and says -1 if there is
one.  By induction on the rows, with the schema and the position as they go along. -/
theorem addLoop_spec (hadd : ∀ r ∈ rows, Adds value add ok f P r) {sch : σ} (hP : P sch)
    (pre post : Bytes) {body : Bytes} (hall : EncodesAll (rows.map value) body) :
    addLoop add (pre ++ (body ++ post)) rows.length pre.length sch =
      some (if rows.all ok then 0 else -1, (rows.takeWhile ok).foldl f sch) := by
  induction rows generalizing sch pre body with
  | nil => rfl
  | cons r rows ih =>
    obtain ⟨bs, rest, rfl, hr, hrest⟩ := hall.cons_cases
    obtain ⟨hgo, hstop⟩ := hadd r (List.mem_cons_self ..) sch pre (rest ++ post) bs hP hr
    rw [List.append_assoc, List.length_cons, addLoop]
    cases hok : ok r with
    | true =>
      obtain ⟨hP', hone⟩ := hgo hok
      have hnext := ih (fun x hx => hadd x (List.mem_cons_of_mem _ hx)) hP' (pre ++ bs) hrest
      rw [List.append_assoc] at hnext
      simp only [hone, ne_eq, not_true_eq_false, if_false, hnext, List.all_cons, hok, Bool.true_and,
        List.takeWhile_cons, if_true, List.foldl_cons]
    | false =>
      obtain ⟨p, hone⟩ := hstop hok
      have hne : (-1 : Int) ≠ 0 := by decide
      simp only [hone, ne_eq, hne, not_false_eq_true, if_true, List.all_cons, hok, Bool.false_and,
        Bool.false_eq_true, if_false, List.takeWhile_cons, List.foldl_nil]

/-- The loop starts behind the array header. -/
theorem addRows_eq (sch : σ) {data : Bytes} (hdata : Encodes (.array (rows.map value)) data) :
    ∃ head body, EncodesAll (rows.map value) body ∧
      addRows add sch data = addLoop add (head ++ (body ++ [])) rows.length head.length sch := by
  have hcheck := mpCheck_front hdata []
  have htype := expectType_front [] [] hdata
  rw [List.append_nil] at hcheck htype
  obtain ⟨b, l, ds, body, rfl, hlead, hl, hall⟩ := hdata.array_cases
  rw [List.length_map] at hl
  have hdec := decodeArrayAt_front [] body hlead hl
  simp only [List.nil_append, List.length_nil, Value.ty] at htype hdec
  refine ⟨b :: ds, body, hall, ?_⟩
  rw [addRows, hcheck, List.append_nil]
  simp only [htype, hdec, Outcome.ok_bind]

/-- **The data of a reply.**  The header of the array is read once, and the number in it is the
number of turns. -/
theorem addRows_spec (hadd : ∀ r ∈ rows, Adds value add ok f P r) (sch : σ) (hP : P sch)
    {data : Bytes} (hdata : Encodes (.array (rows.map value)) data) :
    addRows add sch data =
      some (if rows.all ok then 0 else -1, (rows.takeWhile ok).foldl f sch) := by
  obtain ⟨head, body, hall, heq⟩ := addRows_eq sch hdata
  rw [heq]
  exact addLoop_spec hadd hP head [] hall

end Rows

/-- There is memory for the name of a row. -/
def SpaceRow.named (alloc : Nat → Bool) (r : SpaceRow) : Bool := alloc r.label.name.length

def IndexRow.named (alloc : Nat → Bool) (r : IndexRow) : Bool := alloc r.label.name.length

/-- One space row: refused if there is no memory for its name, added otherwise. -/
theorem tntSchemaAddSpace_adds (alloc : Nat → Bool) (r : SpaceRow) :
    Adds SpaceRow.value (tntSchemaAddSpace alloc) (SpaceRow.named alloc)
      (fun sch r => sch.addSpace r.label.narrow) (fun _ => True) r := by
  intro sch pre post bs _ hbs
  rw [SpaceRow.named, tntSchemaAddSpace, spaceFields_front alloc pre post hbs]
  refine ⟨fun hok => ⟨trivial, ?_⟩, fun hok => ⟨(pre ++ bs).length, ?_⟩⟩
  · rw [if_pos hok]
    exact finish_front pre post hbs _ _
  · rw [hok]
    exact finish_front pre post hbs _ _

/-- **`tnt_schema_add_spaces`** adds the rows before the first that is refused. -/
theorem tntSchemaAddSpaces_spec (alloc : Nat → Bool) (sch : TntSchema) {rows : List SpaceRow}
    {data : Bytes} (hdata : Encodes (.array (rows.map SpaceRow.value)) data) :
    tntSchemaAddSpaces alloc sch data =
      some (if rows.all (SpaceRow.named alloc) then 0 else -1,
        addSpaces sch ((rows.takeWhile (SpaceRow.named alloc)).map fun r => r.label.narrow)) := by
  have h := addRows_spec (fun r _ => tntSchemaAddSpace_adds alloc r) sch trivial hdata
  rw [tntSchemaAddSpaces, h, addSpaces, List.foldl_map]

/-- An index row gets in if its space is there, and memory for its name. -/
def IndexRow.enters (alloc : Nat → Bool) (sch : TntSchema) (r : IndexRow) : Bool :=
  (sch.spaceHash.find (le32 (r.sid % 2 ^ 32))).isSome && r.named alloc

/-- One index row.  The spaces stay the ones of `sch₀`, where the load has begun. -/
theorem tntSchemaAddIndex_adds (alloc : Nat → Bool) (sch₀ : TntSchema) (r : IndexRow) :
    Adds IndexRow.value (tntSchemaAddIndex alloc) (IndexRow.enters alloc sch₀)
      (fun sch r => addIndexes sch [(r.sid % 2 ^ 32, r.label.narrow)])
      (fun sch => sch.spaceHash = sch₀.spaceHash) r := by
  intro sch pre post bs hsame hbs
  obtain ⟨tuple, hsp, hfields⟩ := indexFields_front alloc pre post hbs
  rw [IndexRow.enters, ← hsame, IndexRow.named]
  simp only [tntSchemaAddIndex, hsp, hfields, addIndexes, List.foldl_cons, List.foldl_nil]
  cases sch.spaceHash.find (le32 (r.sid % 2 ^ 32)) with
  | none => exact ⟨fun hok => absurd hok (by simp), fun _ => ⟨_, rfl⟩⟩
  | some a =>
    simp only [Option.isSome_some, Bool.true_and]
    refine ⟨fun hok => ⟨rfl, ?_⟩, fun hok => ⟨(pre ++ bs).length, ?_⟩⟩
    · rw [if_pos hok]
      exact finish_front pre post hbs _ _
    · rw [hok]
      exact finish_front pre post hbs _ _

/-- **`tnt_schema_add_indexes`** adds the rows before the first that is refused. -/
theorem tntSchemaAddIndexes_spec (alloc : Nat → Bool) (sch : TntSchema) {rows : List IndexRow}
    {data : Bytes} (hdata : Encodes (.array (rows.map IndexRow.value)) data) :
    tntSchemaAddIndexes alloc sch data =
      some (if rows.all (IndexRow.enters alloc sch) then 0 else -1,
        addIndexes sch ((rows.takeWhile (IndexRow.enters alloc sch)).map
          fun r => (r.sid % 2 ^ 32, r.label.narrow))) := by
  have h := addRows_spec (fun r _ => tntSchemaAddIndex_adds alloc sch r) sch rfl hdata
  have hfold : addIndexes sch ((rows.takeWhile (IndexRow.enters alloc sch)).map
      fun r => (r.sid % 2 ^ 32, r.label.narrow)) = _ := List.foldl_map
  rw [tntSchemaAddIndexes, h, hfold]
  rfl

/-- Wherever it ends, it comes back. -/
theorem tntSchemaAddIndexes_total (alloc : Nat → Bool) (sch : TntSchema) {rows : List IndexRow}
    {data : Bytes} (hdata : Encodes (.array (rows.map IndexRow.value)) data) :
    ∃ rc sch', tntSchemaAddIndexes alloc sch data = some (rc, sch') :=
  ⟨_, _, tntSchemaAddIndexes_spec alloc sch hdata⟩

/-! ## §4 — pointers stay valid, whatever the data is. -/

/-- The end does not touch the schema. -/
theorem finish_eq_some {σ : Type} {buf : Bytes} {data q : Nat} {rc rc' : Int} {sch sch' : σ}
    (h : finish buf data rc sch = some (rc', sch', q)) : sch' = sch := by
  unfold finish at h
  split at h
  · simp only [Option.some.injEq, Prod.mk.injEq] at h
    exact h.2.1.symm
  · exact absurd h (by simp)

section Keeps

variable {σ : Type} {P : σ → Prop} {add : σ → Bytes → Nat → Option (Int × σ × Nat)} {sch sch' : σ}
  {data : Bytes} {rc : Int}

omit [Msgpuck] in
/-- What every row keeps, the loop keeps, wherever it ends. -/
theorem addLoop_keeps
    (hadd : ∀ {sch sch' : σ} {buf : Bytes} {p q : Nat} {rc : Int}, P sch →
      add sch buf p = some (rc, sch', q) → P sch')
    (h : P sch) {n p : Nat} (hloop : addLoop add data n p sch = some (rc, sch')) : P sch' := by
  induction n generalizing p sch with
  | zero =>
    cases hloop
    exact h
  | succ n ih =>
    rw [addLoop] at hloop
    split at hloop
    · cases hloop
    next rc₁ sch₁ p₁ hone =>
    have h₁ := hadd h hone
    -- a row that fails ends the loop, with what it has left
    split_ifs at hloop
    · cases hloop
      exact h₁
    · exact ih h₁ hloop

/-- ... and so do both functions. -/
theorem addRows_keeps
    (hadd : ∀ {sch sch' : σ} {buf : Bytes} {p q : Nat} {rc : Int}, P sch →
      add sch buf p = some (rc, sch', q) → P sch')
    (h : P sch) (hrows : addRows add sch data = some (rc, sch')) : P sch' := by
  rw [addRows] at hrows
  split at hrows
  · cases hrows
    exact h
  · split at hrows
    · cases hrows
    · cases hrows
      exact h
    · exact addLoop_keeps hadd h hrows

end Keeps

/-- One row, whatever it is, ... -/
theorem tntSchemaAddSpace_wf {alloc : Nat → Bool} {sch sch' : TntSchema} (h : sch.WF)
    {buf : Bytes} {p q : Nat}
    {rc : Int} (hadd : tntSchemaAddSpace alloc sch buf p = some (rc, sch', q)) : sch'.WF := by
  unfold tntSchemaAddSpace at hadd
  split at hadd
  · exact absurd hadd (by simp)
  · rw [finish_eq_some hadd]
    exact h
  · rw [finish_eq_some hadd]
    exact h.addSpace _

/-- ... of either kind, ... -/
theorem tntSchemaAddIndex_wf {alloc : Nat → Bool} {sch sch' : TntSchema} (h : sch.WF)
    {buf : Bytes} {p q : Nat}
    {rc : Int} (hadd : tntSchemaAddIndex alloc sch buf p = some (rc, sch', q)) : sch'.WF := by
  unfold tntSchemaAddIndex at hadd
  split at hadd
  · exact absurd hadd (by simp)
  · rw [finish_eq_some hadd]
    exact h
  · split at hadd
    · simp only [Option.some.injEq, Prod.mk.injEq] at hadd
      rw [← hadd.2.1]
      exact h
    · split at hadd
      · exact absurd hadd (by simp)
      · rw [finish_eq_some hadd]
        exact h
      · rw [finish_eq_some hadd]
        exact h.addIndex _ _

/-- ... and all of them, whatever they are, ... -/
theorem tntSchemaAddSpaces_wf {alloc : Nat → Bool} {sch sch' : TntSchema} (h : sch.WF)
    {data : Bytes} {rc : Int}
    (hadd : tntSchemaAddSpaces alloc sch data = some (rc, sch')) : sch'.WF :=
  addRows_keeps (fun h hadd => tntSchemaAddSpace_wf h hadd) h hadd

/-- ... keep the pointers valid. -/
theorem tntSchemaAddIndexes_wf {alloc : Nat → Bool} {sch sch' : TntSchema} (h : sch.WF)
    {data : Bytes} {rc : Int}
    (hadd : tntSchemaAddIndexes alloc sch data = some (rc, sch')) : sch'.WF :=
  addRows_keeps (fun h hadd => tntSchemaAddIndex_wf h hadd) h hadd

end Spec

end TarantoolC.Schema
