/-
# TarantoolC.Schema.Answers — what the lookups answer once rows have been put in.

What a server gives is a list of rows for its spaces and one for its indexes.  A lookup of a name is
RIGHT (`Yields`) if it answers the number given under the name, and -1 if none is given.

It need not be.  A name and the four bytes of a number are keys of the same hash, so a lookup finds
the row that was put in last under the key, whichever of its two keys that is; and with no such row
it finds what the schema had before.  `Unshadowed` says when this comes to the same, and
`tntSchemaStosid_iff` and `tntSchemaStoiid_iff` that it is the exact condition.

## Where lookups go wrong

Three things can make a lookup wrong, and the condition names each:

* another row has the key, either as its name or as the four bytes of its number, and comes later;
* a row does not get in, because its name is empty (or finds no memory), or stands behind one that
  did not: `spaceTable` and `indexTable` are the rows that do;
* the number does not fit the `int32_t` of the result, or the schema had something under the key
  before (`leftOver`).

`yields_answerOf_iff` is the combinatorial core and knows nothing of schemas: of a lookup that finds
the last row under a key, it says exactly when that row is a right answer.  The two hashes
instantiate it.
-/
import TarantoolC.Schema.Load

namespace TarantoolC.Schema

open MsgPack

/-! ## §1 — right answers. -/

/-- An answer, given the rows `G` under the name that was looked up. -/
def Yields (G : Label → Prop) (answer : Int) : Prop :=
  (∀ l, G l → answer = l.number) ∧ ((∀ l, ¬ G l) → answer = -1)

/-- The last row with a key. -/
def lastUnder (k : Bytes) (rows : List Label) : Option Label :=
  (lastIdx (Label.hasKey k) rows).bind fun i => rows[i]?

/-- What a lookup says that finds `found`, and `left` if it finds nothing. -/
def answerOf (found : Option Label) (left : Int) : Int :=
  match found with
  | some l => int32 l.number
  | none => left

/-- **No row and no remainder gets in the way** of the rows `G`.

If a number is given, the last row of `table` under the key has it, and it is no negative `int32_t`;
without such a row in the table it is what was left over.  If none is given, there is no such row
either and nothing was left over.  (A row numbered `2^32 - 1` does no harm there: as an `int32_t` it
reads -1.) -/
structure Unshadowed (G : Label → Prop) (table : List Label) (k : Bytes) (left : Int) : Prop where
  last : ∀ l, G l → match lastUnder k table with
    | some l' => l'.number = l.number ∧ l.number < 2 ^ 31
    | none => left = l.number
  absent : (∀ l, ¬ G l) → match lastUnder k table with
    | some l' => l'.number = 2 ^ 32 - 1
    | none => left = -1

/-- A number is answered as itself up to `2^31`, ... -/
theorem int32_eq_natCast_iff {n k : Nat} (hn : n < 2 ^ 32) : int32 n = k ↔ n = k ∧ k < 2 ^ 31 := by
  unfold int32
  by_cases h : n < 2 ^ 31
  · rw [if_pos h]
    omega
  · rw [if_neg h]
    omega

/-- ... and as -1 for one value. -/
theorem int32_eq_neg_one_iff {n : Nat} (hn : n < 2 ^ 32) : int32 n = -1 ↔ n = 2 ^ 32 - 1 := by
  unfold int32
  by_cases h : n < 2 ^ 31
  · rw [if_pos h]
    omega
  · rw [if_neg h]
    omega

/-- The last row under a key is a row, ... -/
theorem lastUnder_mem {k : Bytes} {rows : List Label} {l : Label} (h : lastUnder k rows = some l) :
    l ∈ rows := by
  unfold lastUnder at h
  obtain ⟨i, -, hi⟩ := Option.bind_eq_some_iff.mp h
  exact List.mem_of_getElem? hi

/-- ... and there is none where no row has it. -/
theorem lastUnder_eq_none_iff {k : Bytes} {rows : List Label} :
    lastUnder k rows = none ↔ ∀ l ∈ rows, l.hasKey k = false := by
  rw [← lastIdx_eq_none_iff]
  unfold lastUnder
  cases h : lastIdx (Label.hasKey k) rows with
  | none => simp
  | some i =>
    obtain ⟨l, hl, -⟩ := lastIdx_eq_some h
    simp [hl]

/-- **The condition is exact**, for a lookup that finds the last row under its key. -/
theorem yields_answerOf_iff {G : Label → Prop} {table : List Label} {k : Bytes} {left : Int}
    (hlt : ∀ l ∈ table, l.number < 2 ^ 32) :
    Yields G (answerOf (lastUnder k table) left) ↔ Unshadowed G table k left := by
  cases h : lastUnder k table with
  | none =>
    constructor
    · rintro ⟨hlast, habsent⟩
      exact ⟨by rwa [h], by rwa [h]⟩
    · rintro ⟨hlast, habsent⟩
      rw [h] at hlast habsent
      exact ⟨hlast, habsent⟩
  | some m =>
    -- the number of the row, as an `int32_t`
    have hm := hlt m (lastUnder_mem h)
    show Yields G (int32 m.number) ↔ _
    constructor
    · rintro ⟨hlast, habsent⟩
      refine ⟨fun l hl => ?_, fun hno => ?_⟩
      · rw [h]
        exact (int32_eq_natCast_iff hm).mp (hlast l hl)
      · rw [h]
        exact (int32_eq_neg_one_iff hm).mp (habsent hno)
    · rintro ⟨hlast, habsent⟩
      rw [h] at hlast habsent
      exact ⟨fun l hl => (int32_eq_natCast_iff hm).mpr (hlast l hl),
        fun hno => (int32_eq_neg_one_iff hm).mpr (habsent hno)⟩

/-- It has the key in one of two ways. -/
theorem lastUnder_hasKey {k : Bytes} {rows : List Label} {l : Label}
    (h : lastUnder k rows = some l) : l.name = k ∨ le32 l.number = k := by
  unfold lastUnder at h
  obtain ⟨i, hi, hl⟩ := Option.bind_eq_some_iff.mp h
  obtain ⟨l', hl', hkey, -⟩ := lastIdx_eq_some hi
  obtain rfl := Option.some.inj (hl.symm.trans hl')
  exact Label.hasKey_iff.mp hkey

/-- Where no number has the bytes of the name, names that are given once are found. -/
theorem Unshadowed.of_clear {G : Label → Prop} {table : List Label} {k : Bytes}
    (hG : ∀ l, G l ↔ l ∈ table ∧ l.name = k) (hsmall : ∀ l ∈ table, l.number < 2 ^ 31)
    (honce : ∀ l l', G l → G l' → l = l') (hclear : ∀ l ∈ table, le32 l.number ≠ k) :
    Unshadowed G table k (-1) := by
  have hfound : ∀ l, lastUnder k table = some l → G l := by
    intro l hl
    have hmem := lastUnder_mem hl
    rcases lastUnder_hasKey hl with hname | hnum
    · exact (hG l).mpr ⟨hmem, hname⟩
    · exact absurd hnum (hclear l hmem)
  refine ⟨fun l hl => ?_, fun hno => ?_⟩
  · obtain ⟨hmem, hname⟩ := (hG l).mp hl
    cases h : lastUnder k table with
    | none =>
      have hno := lastUnder_eq_none_iff.mp h l hmem
      rw [Label.hasKey_iff.mpr (Or.inl hname)] at hno
      exact absurd hno (by simp)
    | some m =>
      obtain rfl := honce m l (hfound m h) hl
      exact ⟨rfl, hsmall m hmem⟩
  · cases h : lastUnder k table with
    | none => rfl
    | some m => exact absurd (hfound m h) (hno m)

/-! ## §2 — the tables of a server. -/

/-- The rows of a server under the name of a space. -/
def GivenSpace (spaces : List SpaceRow) (name : Bytes) (l : Label) : Prop :=
  (∃ r ∈ spaces, r.label = l) ∧ l.name = name

/-- The rows of a server under the number of a space and the name of an index. -/
def GivenIndex (indexes : List IndexRow) (sid : Int) (name : Bytes) (l : Label) : Prop :=
  (∃ r ∈ indexes, (r.sid : Int) = sid ∧ r.label = l) ∧ l.name = name

section Tables

variable (alloc : Nat → Bool) (old : TntSchema) (spaces : List SpaceRow) (indexes : List IndexRow)

/-- The space rows that are put in: those before the first without memory for its name. -/
def spaceTable : List Label :=
  (spaces.takeWhile (SpaceRow.named alloc)).map fun r => r.label.narrow

/-- The place of the space row that a number leads to. -/
def leads (sid : Nat) : Option Nat := lastIdx (Label.hasKey (le32 sid)) (spaceTable alloc spaces)

/-- The record that a number leads to once the spaces are in: that of a row, and else one that was
there before. -/
def reaches (sid : Nat) : Option Nat :=
  match leads alloc spaces sid with
  | some i => some (old.heap.length + i)
  | none => old.spaceHash.find (le32 sid)

/-- The index rows that are put in: those before the first that has no space, neither a new one nor
an old one, or no memory for its name. -/
def indexesIn : List IndexRow :=
  indexes.takeWhile fun r => (reaches alloc old spaces (r.sid % 2 ^ 32)).isSome && r.named alloc

/-- The index rows that are found under a number: those whose own number leads to the same space. -/
def indexTable (sid : Nat) : List Label :=
  match reaches alloc old spaces sid with
  | none => []
  | some a =>
    ((indexesIn alloc old spaces indexes).filter fun r =>
      reaches alloc old spaces (r.sid % 2 ^ 32) = some a).map fun r => r.label.narrow

/-- What a schema had under the number of a space, if the rows have nothing there. -/
def leftOver (sid : UInt32) (k : Bytes) : Int :=
  if leads alloc spaces sid.toNat = none then tntSchemaStoiid old sid k else -1

/-- The schema after both lists of rows. -/
def loaded : TntSchema :=
  addIndexes (addSpaces old (spaceTable alloc spaces))
    ((indexesIn alloc old spaces indexes).map fun r => (r.sid % 2 ^ 32, r.label.narrow))

end Tables

/-- Numbers in the tables have 32 bits: a row's, ... -/
theorem Label.narrow_lt (l : Label) : l.narrow.number < 2 ^ 32 := Nat.mod_lt _ (by decide)

section Given

variable {alloc : Nat → Bool} {old : TntSchema} {spaces : List SpaceRow} {indexes : List IndexRow}

/-- ... a space's, ... -/
theorem spaceTable_lt {l : Label} (h : l ∈ spaceTable alloc spaces) : l.number < 2 ^ 32 := by
  obtain ⟨r, -, rfl⟩ := List.mem_map.mp h
  exact r.label.narrow_lt

/-- ... and an index's. -/
theorem indexTable_lt {sid : Nat} {l : Label} (h : l ∈ indexTable alloc old spaces indexes sid) :
    l.number < 2 ^ 32 := by
  unfold indexTable at h
  split at h
  · exact absurd h (by simp)
  · obtain ⟨r, -, rfl⟩ := List.mem_map.mp h
    exact r.label.narrow_lt

end Given

/-! ## §3 — the lookups after loading. -/

/-- A record that was there before stays where it is; a new one stands behind it, at its row's
place. -/
theorem addSpaces_space {old : TntSchema} (hwf : old.WF) (rows : List Label) (k : Bytes) :
    (addSpaces old rows).space k =
      match lastIdx (Label.hasKey k) rows with
      | some i => (rows[i]?).map fun l => ⟨l, .empty⟩
      | none => old.space k := by
  unfold TntSchema.space
  rw [addSpaces_find, addSpaces_heap]
  cases lastIdx (Label.hasKey k) rows with
  | some i =>
    show (old.heap ++ _)[old.heap.length + i]? = _
    rw [List.getElem?_append_right (Nat.le_add_right _ _), Nat.add_sub_cancel_left,
      List.getElem?_map]
  | none =>
    cases hfind : old.spaceHash.find k with
    | none => rfl
    | some a => exact List.getElem?_append_left (hwf k a hfind)

/-- Indexes leave the labels of the records alone. -/
theorem addIndexes_space (sch : TntSchema) (rows : List (Nat × Label)) (k : Bytes) :
    (addIndexes sch rows).space k = (sch.spaceHash.find k).bind fun a =>
      (sch.heap[a]?).map fun v => { v with index := putAll v.index (rowsFor sch a rows) } := by
  unfold TntSchema.space
  rw [addIndexes_spaceHash]
  congr 1
  funext a
  exact addIndexes_heap sch rows a

/-- **`tnt_schema_stosid`** finds the last row under its key, or what was there before. -/
theorem tntSchemaStosid_loaded (alloc : Nat → Bool) {old : TntSchema} (hwf : old.WF)
    (spaces : List SpaceRow) (indexes : List IndexRow) (k : Bytes) :
    tntSchemaStosid (loaded alloc old spaces indexes) k =
      answerOf (lastUnder k (spaceTable alloc spaces)) (tntSchemaStosid old k) := by
  have hlabel : ((loaded alloc old spaces indexes).space k).map Sval.label =
      ((addSpaces old (spaceTable alloc spaces)).space k).map Sval.label := by
    rw [loaded, addIndexes_space, TntSchema.space]
    cases (addSpaces old (spaceTable alloc spaces)).spaceHash.find k with
    | none => rfl
    | some a => simp only [Option.bind_some, Option.map_map]; rfl
  have hstosid : ∀ sch : TntSchema, tntSchemaStosid sch k =
      answerOf ((sch.space k).map Sval.label) (-1) := by
    intro sch
    unfold tntSchemaStosid
    cases sch.space k <;> rfl
  rw [hstosid, hlabel, addSpaces_space hwf, lastUnder]
  cases h : lastIdx (Label.hasKey k) (spaceTable alloc spaces) with
  | none => exact (hstosid old).symm
  | some i =>
    obtain ⟨l, hl, -⟩ := lastIdx_eq_some h
    simp only [Option.bind_some, hl]
    rfl

section Loaded

variable (alloc : Nat → Bool) {old : TntSchema} (spaces : List SpaceRow) (indexes : List IndexRow)

/-- Once the spaces are in, the hash leads where the rows say. -/
theorem addSpaces_reaches (sid : Nat) :
    (addSpaces old (spaceTable alloc spaces)).spaceHash.find (le32 sid) =
      reaches alloc old spaces sid :=
  addSpaces_find ..

/-- So an index row gets in there if the rows say so. -/
theorem takeWhile_enters :
    indexes.takeWhile (IndexRow.enters alloc (addSpaces old (spaceTable alloc spaces))) =
      indexesIn alloc old spaces indexes := by
  refine congrArg (List.takeWhile · indexes) (funext fun r => ?_)
  rw [IndexRow.enters, addSpaces_reaches]

/-- The rows of an index table are those that go into its record. -/
theorem rowsFor_loaded {sid a : Nat} (ha : reaches alloc old spaces sid = some a) :
    rowsFor (addSpaces old (spaceTable alloc spaces)) a
        ((indexesIn alloc old spaces indexes).map fun r => (r.sid % 2 ^ 32, r.label.narrow)) =
      indexTable alloc old spaces indexes sid := by
  simp only [rowsFor, indexTable, ha, addSpaces_reaches]
  rw [List.filter_map, List.map_map]
  rfl

/-- **`tnt_schema_stoiid`** finds the last row under its key in the table of the space, or what was
there before. -/
theorem tntSchemaStoiid_loaded (hwf : old.WF) (sid : UInt32) (k : Bytes) :
    tntSchemaStoiid (loaded alloc old spaces indexes) sid k =
      answerOf (lastUnder k (indexTable alloc old spaces indexes sid.toNat))
        (leftOver alloc old spaces sid k) := by
  have hspace : (loaded alloc old spaces indexes).space (le32 sid.toNat) = _ :=
    addIndexes_space _ _ _
  have hreach : (addSpaces old (spaceTable alloc spaces)).spaceHash.find (le32 sid.toNat) = _ :=
    addSpaces_reaches alloc spaces sid.toNat
  unfold tntSchemaStoiid
  rw [hspace, hreach, addSpaces_heap]
  cases ha : reaches alloc old spaces sid.toNat with
  | none =>
    -- no space, old or new
    have htable : indexTable alloc old spaces indexes sid.toNat = [] := by
      simp only [indexTable, ha]
    have hnone : leads alloc spaces sid.toNat = none := by
      cases hp : leads alloc spaces sid.toNat with
      | none => rfl
      | some p => simp [reaches, hp] at ha
    have hold : old.spaceHash.find (le32 sid.toNat) = none := by
      simpa only [reaches, hnone] using ha
    rw [htable, leftOver, if_pos hnone, tntSchemaStoiid, TntSchema.space, hold]
    rfl
  | some a =>
    rw [Option.bind_some, rowsFor_loaded alloc spaces indexes ha]
    cases hp : leads alloc spaces sid.toNat with
    | some p =>
      -- a new space, whose hash of indexes was empty
      have hplace : a = old.heap.length + p := by
        simpa only [reaches, hp, Option.some.injEq, eq_comm] using ha
      obtain ⟨l, hl, -⟩ := lastIdx_eq_some hp
      have hrec : (old.heap ++ (spaceTable alloc spaces).map fun l => ⟨l, .empty⟩)[a]? =
          some ⟨l, .empty⟩ := by
        rw [hplace, List.getElem?_append_right (Nat.le_add_right _ _), Nat.add_sub_cancel_left,
          List.getElem?_map, hl]
        rfl
      have hleft : leftOver alloc old spaces sid k = -1 := by rw [leftOver, hp]; rfl
      simp only [hrec, Option.map_some, putAll_find, hleft, lastUnder]
      cases hk : lastIdx (Label.hasKey k) (indexTable alloc old spaces indexes sid.toNat) with
      | none => simp [answerOf]
      | some i =>
        obtain ⟨m, hm, -⟩ := lastIdx_eq_some hk
        simp [hm, answerOf]
    | none =>
      -- an old space keeps its indexes below those that are put in
      have hfind : old.spaceHash.find (le32 sid.toNat) = some a := by
        simpa only [reaches, hp] using ha
      have hlt := hwf _ _ hfind
      have hrec : (old.heap ++ (spaceTable alloc spaces).map fun l => ⟨l, .empty⟩)[a]? =
          some old.heap[a] := by
        rw [List.getElem?_append_left hlt, List.getElem?_eq_getElem hlt]
      simp only [hrec, Option.map_some, putAll_find, leftOver, if_pos hp, tntSchemaStoiid,
        TntSchema.space, hfind, Option.bind_some, List.getElem?_eq_getElem hlt, lastUnder]
      cases hk : lastIdx (Label.hasKey k) (indexTable alloc old spaces indexes sid.toNat) with
      | none => simp [answerOf]
      | some i =>
        obtain ⟨m, hm, -⟩ := lastIdx_eq_some hk
        simp [hm, answerOf]

/-- **When `tnt_schema_stosid` is right**, for a name that is looked up with the key `k`. -/
theorem tntSchemaStosid_iff (hwf : old.WF) (name k : Bytes) :
    Yields (GivenSpace spaces name) (tntSchemaStosid (loaded alloc old spaces indexes) k) ↔
      Unshadowed (GivenSpace spaces name) (spaceTable alloc spaces) k (tntSchemaStosid old k) := by
  rw [tntSchemaStosid_loaded alloc hwf]
  exact yields_answerOf_iff fun l hl => spaceTable_lt hl

/-- **When `tnt_schema_stoiid` is right**, for a space number that is passed as `u`. -/
theorem tntSchemaStoiid_iff (hwf : old.WF) (sid : Int) (u : UInt32) (name k : Bytes) :
    Yields (GivenIndex indexes sid name) (tntSchemaStoiid (loaded alloc old spaces indexes) u k) ↔
      Unshadowed (GivenIndex indexes sid name) (indexTable alloc old spaces indexes u.toNat) k
        (leftOver alloc old spaces u k) := by
  rw [tntSchemaStoiid_loaded alloc spaces indexes hwf]
  exact yields_answerOf_iff fun l hl => indexTable_lt hl

end Loaded

/-! ## §4 — a new schema. -/

/-- A new schema has nothing left over. -/
theorem leftOver_new (alloc : Nat → Bool) (spaces : List SpaceRow) (sid : UInt32) (k : Bytes) :
    leftOver alloc tntSchemaNew spaces sid k = -1 := by
  unfold leftOver
  split_ifs
  · rfl
  · rfl

section Loading

variable [Msgpuck]

/-- The indexes, once the spaces are in. -/
theorem tntSchemaAddIndexes_loaded (alloc : Nat → Bool) (old : TntSchema) (spaces : List SpaceRow)
    {indexes : List IndexRow} {idata : Bytes}
    (hi : Encodes (.array (indexes.map IndexRow.value)) idata) :
    ∃ rc, tntSchemaAddIndexes alloc (addSpaces old (spaceTable alloc spaces)) idata =
      some (rc, loaded alloc old spaces indexes) := by
  have hindexes := tntSchemaAddIndexes_spec alloc (addSpaces old (spaceTable alloc spaces)) hi
  rw [takeWhile_enters] at hindexes
  exact ⟨_, hindexes⟩

/-- **When the lookups in a new schema are right**, for any rows at all: spaces and indexes without
a name, indexes without a space, names and numbers that are given twice.  For the lookup of a space
the condition is `Unshadowed` over the table of all space rows that get in, and for that of an index
over the table of the rows that lead to the same space.  A row that does not get in is missing from
the table with all behind it, which is right only if none of them has the name. -/
theorem tntSchema_lookups_exact_iff (alloc : Nat → Bool) {spaces : List SpaceRow}
    {indexes : List IndexRow} {sdata idata : Bytes}
    (hs : Encodes (.array (spaces.map SpaceRow.value)) sdata)
    (hi : Encodes (.array (indexes.map IndexRow.value)) idata) :
    ∃ rc₁ sch₁ rc₂ sch, tntSchemaAddSpaces alloc tntSchemaNew sdata = some (rc₁, sch₁) ∧
      tntSchemaAddIndexes alloc sch₁ idata = some (rc₂, sch) ∧
      (∀ name, Yields (GivenSpace spaces name) (tntSchemaStosid sch name) ↔
        Unshadowed (GivenSpace spaces name) (spaceTable alloc spaces) name (-1)) ∧
      ∀ (sid : UInt32) name,
        Yields (GivenIndex indexes sid.toNat name) (tntSchemaStoiid sch sid name) ↔
          Unshadowed (GivenIndex indexes sid.toNat name)
            (indexTable alloc tntSchemaNew spaces indexes sid.toNat) name (-1) := by
  obtain ⟨rc₂, hindexes⟩ := tntSchemaAddIndexes_loaded alloc tntSchemaNew spaces hi
  refine ⟨_, _, rc₂, _, tntSchemaAddSpaces_spec alloc tntSchemaNew hs, hindexes, fun name => ?_,
    fun sid name => ?_⟩
  · exact tntSchemaStosid_iff alloc spaces indexes tntSchemaNew_wf name name
  · have h := tntSchemaStoiid_iff alloc spaces indexes tntSchemaNew_wf sid.toNat sid name name
    rwa [leftOver_new] at h

end Loading

/-! Two spaces of a server: `"test"`, numbered 512, and one whose number has the bytes of that name. -/

def test : Bytes := [0x74, 0x65, 0x73, 0x74]

def testSpace : SpaceRow := ⟨⟨test, 512⟩, .uint 1, []⟩

def otherSpace : SpaceRow := ⟨⟨[0x6f], 0x74736574⟩, .uint 1, []⟩

/-- The index `"pk"` of `"test"`. -/
def testIndex : IndexRow := ⟨512, ⟨[0x70, 0x6b], 0⟩, []⟩

/-- The replies that carry them: a space, ... -/
theorem testSpace_encodes :
    Encodes (.array ([testSpace].map SpaceRow.value)) (encode (.array [testSpace.value])) :=
  encodes_encodeWith packed_sound _
    (by simp [Value.Fits, FitsAll, SpaceRow.value, testSpace, test])

/-- ... and an index. -/
theorem testIndex_encodes :
    Encodes (.array ([testIndex].map IndexRow.value)) (encode (.array [testIndex.value])) :=
  encodes_encodeWith packed_sound _
    (by simp [Value.Fits, FitsAll, IndexRow.value, testIndex])

/-- The condition holds of the first alone, ... -/
theorem tntSchema_lookups_exact_test :
    ∃ rc₁ sch₁ rc₂ sch, @tntSchemaAddSpaces Msgpuck.reference customRealloc tntSchemaNew
        (encode (.array [testSpace.value])) = some (rc₁, sch₁) ∧
      @tntSchemaAddIndexes Msgpuck.reference customRealloc sch₁
        (encode (.array [testIndex.value])) = some (rc₂, sch) ∧
      Yields (GivenSpace [testSpace] test) (tntSchemaStosid sch test) := by
  obtain ⟨rc₁, sch₁, rc₂, sch, hs, hi, hspaces, -⟩ :=
    @tntSchema_lookups_exact_iff Msgpuck.reference customRealloc _ _ _ _ testSpace_encodes
      testIndex_encodes
  refine ⟨rc₁, sch₁, rc₂, sch, hs, hi, (hspaces test).mpr (Unshadowed.of_clear ?_ ?_ ?_ ?_)⟩
  · intro l
    simp [GivenSpace, spaceTable, SpaceRow.named, customRealloc, testSpace, Label.narrow, eq_comm,
      test]
  · decide
  · rintro l l' ⟨⟨r, hr, rfl⟩, -⟩ ⟨⟨r', hr', rfl⟩, -⟩
    rw [List.mem_singleton.mp hr, List.mem_singleton.mp hr']
  · decide

/-- ... and not of both: the second one's number is found under the first one's name. -/
theorem tntSchema_lookups_shadowed :
    ∃ sch, @tntSchemaAddSpaces Msgpuck.reference customRealloc tntSchemaNew
        (encode (.array [testSpace.value, otherSpace.value])) = some (0, sch) ∧
      tntSchemaStosid sch test = 0x74736574 ∧
      ¬ Yields (GivenSpace [testSpace, otherSpace] test) (tntSchemaStosid sch test) := by
  have hdata : Encodes (.array ([testSpace, otherSpace].map SpaceRow.value))
      (encode (.array [testSpace.value, otherSpace.value])) :=
    encodes_encodeWith packed_sound _
      (by simp [Value.Fits, FitsAll, SpaceRow.value, testSpace, otherSpace, test])
  have hanswer : tntSchemaStosid (addSpaces tntSchemaNew
      (spaceTable customRealloc [testSpace, otherSpace])) test = 0x74736574 := by
    decide
  refine ⟨_, @tntSchemaAddSpaces_spec Msgpuck.reference customRealloc tntSchemaNew _ _ hdata,
    hanswer, ?_⟩
  rintro ⟨hlast, -⟩
  have hwrong := hlast ⟨test, 512⟩ ⟨⟨testSpace, by simp, rfl⟩, rfl⟩
  exact absurd (hanswer.symm.trans hwrong) (by decide)

/-! The other way to go wrong: of a space without a name and `"o"` behind it, neither is loaded. -/

example : tntSchemaStosid (loaded customRealloc tntSchemaNew
    [⟨⟨[], 512⟩, .uint 1, []⟩, ⟨⟨[0x6f], 513⟩, .uint 1, []⟩] []) [0x6f] = -1 := by
  decide

end TarantoolC.Schema
