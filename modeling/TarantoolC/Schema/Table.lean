/-
# TarantoolC.Schema.Table — the schema tables (`tnt/tnt_schema.c`, `tnt/tnt_assoc.h`).

A schema is ONE hash for spaces, in which every space stands twice: under its name, and under the
four bytes of its number.  Both entries point to the same record, and the record has a hash of the
same kind for its indexes.  Records live on the heap and are reached through pointers, so a heap is
part of the state.

The hash (`third_party/mhash.h`) is taken by what it does: at most one entry per key, `mh_put`
replaces, `mh_find` finds, and there is memory for its nodes.  (`TarantoolC.Schema.Refine` has the
hash as the code has it, and shows that it comes to the same.)

What a lookup finds after a list of rows has been put in is the LAST row with the key
(`addSpaces_find`, `putAll_find`).

Two keys in one hash is what the claims about lookups turn on.  A name of four bytes and a number
can be the same key, and then the entry that was put in later is found under both.  `Label.hasKey`
therefore does not ask which of the two keys it is, and `lastIdx` counts rows, not keys.

`int32` is the result type of the lookups: a number from `2^31` on comes out negative, and `2^32 -
1` as the -1 that stands for nothing found.
-/
import TarantoolC.MsgPack.Format

namespace TarantoolC.Schema

open MsgPack

/-! ## §1 — the hash. -/

/-- `struct mh_assoc_t`: keys are byte strings. -/
def Assoc (β : Type) : Type := List (Bytes × β)

namespace Assoc

variable {β : Type}

def empty : Assoc β := []

/-- `mh_assoc_find`. -/
def find (t : Assoc β) (k : Bytes) : Option β := (List.find? (fun e => e.1 = k) t).map Prod.snd

/-- `mh_assoc_put`. -/
def put (t : Assoc β) (k : Bytes) (v : β) : Assoc β := (k, v) :: List.filter (fun e => e.1 ≠ k) t

/-- What is found: nothing, ... -/
@[simp] theorem find_empty (k : Bytes) : (empty : Assoc β).find k = none := rfl

/-- ... and what was put in under the key, or what was there. -/
theorem find_put (t : Assoc β) (k k' : Bytes) (v : β) :
    (t.put k v).find k' = if k = k' then some v else t.find k' := by
  unfold find put
  by_cases h : k = k'
  · rw [if_pos h, List.find?_cons_of_pos (by simpa using h)]
    rfl
  · rw [if_neg h, List.find?_cons_of_neg (by simpa using h)]
    congr 1
    -- an entry with the key looked for is not one of those that are replaced
    induction t with
    | nil => rfl
    | cons e t ih =>
      by_cases he : e.1 = k'
      · have hk : e.1 ≠ k := fun hek => h (hek.symm.trans he)
        rw [List.filter_cons_of_pos (by simpa using hk), List.find?_cons_of_pos (by simpa using he),
          List.find?_cons_of_pos (by simpa using he)]
      · rw [List.find?_cons_of_neg (by simpa using he), ← ih]
        by_cases hk : e.1 = k
        · rw [List.filter_cons_of_neg (by simpa using hk)]
        · rw [List.filter_cons_of_pos (by simpa using hk),
            List.find?_cons_of_neg (by simpa using he)]

end Assoc

/-! ## §2 — two keys. -/

/-- What a space or an index is found by. -/
structure Label where
  name : Bytes
  number : Nat
  deriving Repr, DecidableEq

/-- The bytes of a `uint32_t` in memory. -/
def le32 (n : Nat) : Bytes := (be 4 n).reverse

/-- A row is reachable under the key. -/
def Label.hasKey (k : Bytes) (l : Label) : Bool := l.name = k || le32 l.number = k

/-- A row has two keys, ... -/
theorem Label.hasKey_iff {k : Bytes} {l : Label} :
    l.hasKey k = true ↔ l.name = k ∨ le32 l.number = k := by
  simp [Label.hasKey]

/-- The place of the last element with a property. -/
def lastIdx {β : Type} (p : β → Bool) : List β → Option Nat
  | [] => none
  | x :: l =>
    match lastIdx p l with
    | some i => some (i + 1)
    | none => if p x then some 0 else none

section LastIdx

variable {β : Type} {p : β → Bool}

/-- The last element with a property: there is none, ... -/
theorem lastIdx_eq_none_iff {l : List β} : lastIdx p l = none ↔ ∀ x ∈ l, p x = false := by
  induction l with
  | nil => simp [lastIdx]
  | cons x l ih =>
    cases h : lastIdx p l with
    | none =>
      rw [h] at ih
      have hl := ih.mp rfl
      cases hx : p x <;> simp [lastIdx, h, hx]
      exact fun y hy => by simpa using hl y hy
    | some i =>
      rw [h] at ih
      have hne : ¬ ∀ y ∈ l, p y = false := fun hall => absurd (ih.mpr hall) (by simp)
      simp only [lastIdx, h, List.forall_mem_cons]
      constructor
      · intro habs
        exact absurd habs (by simp)
      · intro hall
        exact absurd hall.2 hne

/-- ... or it has it, and none behind it does. -/
theorem lastIdx_eq_some {l : List β} {i : Nat} (h : lastIdx p l = some i) :
    ∃ x, l[i]? = some x ∧ p x = true ∧ ∀ j y, i < j → l[j]? = some y → p y = false := by
  induction l generalizing i with
  | nil => exact absurd h (by simp [lastIdx])
  | cons x l ih =>
    cases hl : lastIdx p l with
    | some j =>
      simp only [lastIdx, hl, Option.some.injEq] at h
      subst h
      obtain ⟨y, hy, hp, hafter⟩ := ih hl
      refine ⟨y, by simpa using hy, hp, ?_⟩
      intro k z hk hz
      cases k with
      | zero => omega
      | succ k => exact hafter k z (by omega) (by simpa using hz)
    | none =>
      have hnone := lastIdx_eq_none_iff.mp hl
      cases hx : p x with
      | false => simp [lastIdx, hl, hx] at h
      | true =>
        simp only [lastIdx, hl, hx, if_true, Option.some.injEq] at h
        subst h
        refine ⟨x, rfl, hx, ?_⟩
        intro k z hk hz
        cases k with
        | zero => omega
        | succ k => exact hnone z (List.mem_of_getElem? (by simpa using hz))

end LastIdx

/-- `mh_put` under the name, then under the bytes of the number. -/
def Assoc.put2 {β : Type} (t : Assoc β) (l : Label) (v : β) : Assoc β :=
  (t.put l.name v).put (le32 l.number) v

/-- ... and is found under both. -/
theorem Assoc.find_put2 {β : Type} (t : Assoc β) (l : Label) (v : β) (k : Bytes) :
    (t.put2 l v).find k = if l.hasKey k then some v else t.find k := by
  rw [Assoc.put2, Assoc.find_put, Assoc.find_put]
  by_cases hnum : le32 l.number = k
  · rw [if_pos hnum, if_pos (Label.hasKey_iff.mpr (Or.inr hnum))]
  · rw [if_neg hnum]
    by_cases hname : l.name = k
    · rw [if_pos hname, if_pos (Label.hasKey_iff.mpr (Or.inl hname))]
    · rw [if_neg hname, if_neg]
      intro h
      rcases Label.hasKey_iff.mp h with h | h
      · exact hname h
      · exact hnum h

/-- Rows put in one after the other, each as its own value. -/
def putAll (t : Assoc Label) (rows : List Label) : Assoc Label :=
  rows.foldl (fun t l => t.put2 l l) t

/-- The last row with the key is found, or else what was there before. -/
theorem putAll_find (t : Assoc Label) (rows : List Label) (k : Bytes) :
    (putAll t rows).find k =
      match lastIdx (Label.hasKey k) rows with
      | some i => rows[i]?
      | none => t.find k := by
  induction rows generalizing t with
  | nil => rfl
  | cons l rows ih =>
    show (putAll (t.put2 l l) rows).find k = _
    rw [ih]
    cases h : lastIdx (Label.hasKey k) rows with
    | some i =>
      simp only [lastIdx, h]
      rfl
    | none =>
      simp only [lastIdx, h, Assoc.find_put2]
      cases hl : l.hasKey k <;> rfl

/-! ## §3 — the schema. -/

/-- `struct tnt_schema_sval`; its indexes are values of their own (`struct tnt_schema_ival`), which
nothing changes once they are in the hash. -/
structure Sval where
  label : Label
  index : Assoc Label

/-- `struct tnt_schema`: the heap of its records, and the hash with pointers to them. -/
structure TntSchema where
  heap : List Sval
  spaceHash : Assoc Nat

/-- `tnt_schema_new`. -/
def tntSchemaNew : TntSchema := ⟨[], .empty⟩

namespace TntSchema

/-- The record under a key. -/
def space (sch : TntSchema) (k : Bytes) : Option Sval :=
  (sch.spaceHash.find k).bind fun a => sch.heap[a]?

/-- A new record, put in under its two keys. -/
def addSpace (sch : TntSchema) (l : Label) : TntSchema where
  heap := sch.heap ++ [⟨l, .empty⟩]
  spaceHash := sch.spaceHash.put2 l sch.heap.length

/-- An index put into the hash of the record at `a`. -/
def addIndex (sch : TntSchema) (a : Nat) (l : Label) : TntSchema :=
  { sch with heap := sch.heap.modify a fun v => { v with index := v.index.put2 l l } }

end TntSchema

/-- An `int32_t` made of a `uint32_t`. -/
def int32 (n : Nat) : Int := if n < 2 ^ 31 then n else n - 2 ^ 32

/-- `tnt_schema_stosid`. -/
def tntSchemaStosid (sch : TntSchema) (name : Bytes) : Int :=
  match sch.space name with
  | none => -1
  | some space => int32 space.label.number

/-- `tnt_schema_stoiid`. -/
def tntSchemaStoiid (sch : TntSchema) (sid : UInt32) (name : Bytes) : Int :=
  match sch.space (le32 sid.toNat) with
  | none => -1
  | some space =>
    match space.index.find name with
    | none => -1
    | some index => int32 index.number

/-- Every pointer of the hash points to a record. -/
def TntSchema.WF (sch : TntSchema) : Prop :=
  ∀ k a, sch.spaceHash.find k = some a → a < sch.heap.length

/-- A new schema has no pointers, ... -/
theorem tntSchemaNew_wf : tntSchemaNew.WF := by
  intro k a h
  exact absurd h (by simp [tntSchemaNew])

/-- ... a space brings a record with its two, ... -/
theorem TntSchema.WF.addSpace {sch : TntSchema} (h : sch.WF) (l : Label) : (sch.addSpace l).WF := by
  intro k a hk
  have hfind : (sch.spaceHash.put2 l sch.heap.length).find k = some a := hk
  show a < (sch.heap ++ [_]).length
  rw [Assoc.find_put2] at hfind
  rw [List.length_append, List.length_singleton]
  split_ifs at hfind with hl
  · have : sch.heap.length = a := Option.some.inj hfind
    omega
  · have := h k a hfind
    omega

/-- ... and an index none. -/
theorem TntSchema.WF.addIndex {sch : TntSchema} (h : sch.WF) (a : Nat) (l : Label) :
    (sch.addIndex a l).WF := by
  intro k b hk
  have hlt := h k b hk
  show b < (sch.heap.modify a _).length
  rw [List.length_modify]
  exact hlt

/-! ## §4 — many rows. -/

/-- Spaces put in one after the other. -/
def addSpaces (sch : TntSchema) (spaces : List Label) : TntSchema :=
  spaces.foldl TntSchema.addSpace sch

/-- The records of rows stand behind those that were there, in the order of the rows. -/
theorem addSpaces_heap (sch : TntSchema) (spaces : List Label) :
    (addSpaces sch spaces).heap = sch.heap ++ spaces.map fun l => ⟨l, .empty⟩ := by
  induction spaces generalizing sch with
  | nil => simp [addSpaces]
  | cons l spaces ih =>
    show (addSpaces (sch.addSpace l) spaces).heap = _
    rw [ih]
    simp [TntSchema.addSpace]

/-- A key leads to the last space that has it, and to what was there before if there is none. -/
theorem addSpaces_find (sch : TntSchema) (spaces : List Label) (k : Bytes) :
    (addSpaces sch spaces).spaceHash.find k =
      match lastIdx (Label.hasKey k) spaces with
      | some i => some (sch.heap.length + i)
      | none => sch.spaceHash.find k := by
  induction spaces generalizing sch with
  | nil => rfl
  | cons l spaces ih =>
    show (addSpaces (sch.addSpace l) spaces).spaceHash.find k = _
    rw [ih]
    have hlen : (sch.addSpace l).heap.length = sch.heap.length + 1 := by simp [TntSchema.addSpace]
    have hfind : (sch.addSpace l).spaceHash.find k =
        if l.hasKey k then some sch.heap.length else sch.spaceHash.find k :=
      Assoc.find_put2 _ _ _ _
    cases h : lastIdx (Label.hasKey k) spaces with
    | some i =>
      simp only [lastIdx, h, hlen]
      rw [Nat.add_assoc, Nat.add_comm 1 i]
    | none =>
      simp only [lastIdx, h, hfind]
      cases hl : l.hasKey k <;> rfl

/-- Indexes put in one after the other, each for the space under the bytes of its `sid`.  (The code
stops at a row without such a space; here it is passed over.) -/
def addIndexes (sch : TntSchema) (rows : List (Nat × Label)) : TntSchema :=
  rows.foldl (fun sch r =>
    match sch.spaceHash.find (le32 r.1) with
    | some a => sch.addIndex a r.2
    | none => sch) sch

/-- Indexes change no space, ... -/
theorem addIndexes_spaceHash (sch : TntSchema) (rows : List (Nat × Label)) :
    (addIndexes sch rows).spaceHash = sch.spaceHash := by
  induction rows generalizing sch with
  | nil => rfl
  | cons r rows ih =>
    unfold addIndexes at ih ⊢
    rw [List.foldl_cons, ih]
    cases sch.spaceHash.find (le32 r.1) <;> rfl

/-- The rows that go into the record at `a`. -/
def rowsFor (sch : TntSchema) (a : Nat) (rows : List (Nat × Label)) : List Label :=
  (rows.filter fun r => sch.spaceHash.find (le32 r.1) = some a).map Prod.snd

/-- ... and of a record only its hash of indexes. -/
theorem addIndexes_heap (sch : TntSchema) (rows : List (Nat × Label)) (a : Nat) :
    (addIndexes sch rows).heap[a]? =
      (sch.heap[a]?).map fun v => { v with index := putAll v.index (rowsFor sch a rows) } := by
  induction rows generalizing sch with
  | nil =>
    show sch.heap[a]? = (sch.heap[a]?).map fun v => v
    rw [Option.map_id']
  | cons r rows ih =>
    cases hfind : sch.spaceHash.find (le32 r.1) with
    | none =>
      have hstep : addIndexes sch (r :: rows) = addIndexes sch rows := by
        simp [addIndexes, hfind]
      have hrows : rowsFor sch a (r :: rows) = rowsFor sch a rows := by
        simp [rowsFor, hfind]
      rw [hstep, hrows, ih]
    | some b =>
      have hstep : addIndexes sch (r :: rows) = addIndexes (sch.addIndex b r.2) rows := by
        simp [addIndexes, hfind]
      have hsame : rowsFor (sch.addIndex b r.2) a rows = rowsFor sch a rows := rfl
      rw [hstep, ih, hsame]
      show ((sch.heap.modify b _)[a]?).map _ = _
      rw [List.getElem?_modify]
      by_cases hab : b = a
      · -- the row goes into this record, before all the others
        subst hab
        have hrows : rowsFor sch b (r :: rows) = r.2 :: rowsFor sch b rows := by
          simp [rowsFor, hfind]
        rw [hrows]
        cases sch.heap[b]? <;> simp [putAll]
      · have hrows : rowsFor sch a (r :: rows) = rowsFor sch a rows := by
          simp [rowsFor, hfind, hab]
        rw [hrows]
        cases sch.heap[a]? <;> simp [hab]

end TarantoolC.Schema
