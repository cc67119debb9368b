/-
# TarantoolC.Schema.Flush — releasing the schema (`tnt/tnt_schema.c`), over the slots of its hash.

`tnt_schema_space_free` walks the slots of the hash of spaces and takes both keys of each record out
of it before it releases the record.  The hash is here the one of `third_party/mhash.h`, with the
resize that may be pending in it: a deletion goes on with it, and at its end another array takes the
place of the one that is being walked, with every node in another slot.

`tntSchemaFlush_empties` says that all is released if no resize is pending, and
`tntSchemaFlush_leaves_space` shows a schema of which a space is left.  The hashes of indexes are
taken by what they do, as in `TarantoolC.Schema.Table`: no lookup reaches them once the space is
gone.

The invariant of the walk (`Freeing`) speaks of slots, not of entries: the slots before the position
are empty, and every node behind it belongs to a record that is still there.  A deletion without a
pending resize changes only the two slots of the record, one of which is at the position.  With a
resize it may end the resize, the array is another one, and slots before the position are full
again.  The loop does not go back for them; the 137 spaces of the last section are the least that
shows it with numbers in a row.

`Reached` lists the calls a schema can have been through, loads and flushes in any order, and each
of them with an allocator of its own.
-/
import TarantoolC.Mhash
import TarantoolC.Schema.Within

namespace TarantoolC.Schema.Slots

open MsgPack Msgpuck Probing Mhash

/-! ## §1 — the hash function (`third_party/PMurHash.c`). -/

/-- `ROTL32`. -/
def rotl32 (x r : Nat) : Nat := (x <<< r) % 2 ^ 32 ||| (x >>> (32 - r))

/-- What `DOBLOCK` does with `k1` first, and `PMurHash32_Result` with the last bytes. -/
def mixK (k1 : Nat) : Nat := rotl32 (k1 * 0xcc9e2d51 % 2 ^ 32) 15 * 0x1b873593 % 2 ^ 32

/-- `DOBLOCK`. -/
def doBlock (h1 k1 : Nat) : Nat := (rotl32 (h1 ^^^ mixK k1) 13 * 5 + 0xe6546b64) % 2 ^ 32

/-- A little-endian number. -/
def leNat : Bytes → Nat
  | [] => 0
  | b :: bs => b.toNat + 256 * leNat bs

/-- `PMurHash32_Process` from an empty carry: the hash of the blocks, and the bytes behind them. -/
def pMurHash32Process : Nat → Bytes → Nat × Bytes
  | h1, b₀ :: b₁ :: b₂ :: b₃ :: rest => pMurHash32Process (doBlock h1 (leNat [b₀, b₁, b₂, b₃])) rest
  | h1, carry => (h1, carry)

/-- `PMurHash32_Result`. -/
def pMurHash32Result (h : Nat) (carry : Bytes) (totalLength : Nat) : Nat :=
  let h := if carry.isEmpty then h else h ^^^ mixK (leNat carry)
  let h := h ^^^ totalLength
  let h := (h ^^^ (h >>> 16)) * 0x85ebca6b % 2 ^ 32
  let h := (h ^^^ (h >>> 13)) * 0xc2b2ae35 % 2 ^ 32
  h ^^^ (h >>> 16)

/-- `mh_hash` and `mh_hash_key`: `PMurHash32(MUR_SEED, key, len)`, for keys whose length is an
`int`. -/
def mhHash (key : Bytes) : Nat :=
  let (h1, carry) := pMurHash32Process 13 key
  pMurHash32Result h1 carry key.length

/-! ## §2 — the code. -/

/-- `struct tnt_schema`: its records, `none` once they are released, and the hash. -/
structure TntSchemaMh where
  heap : List (Option Sval)
  spaceHash : Mh Bytes Nat

/-- `tnt_schema_new`. -/
def tntSchemaNewMh : TntSchemaMh := ⟨[], mhNew⟩

section Code

variable (hash : Bytes → Nat)

/-- `mh_assoc_find` and the record: `some none` for `mh_end`.  To look at a released record is
undefined. -/
def spaceAt (sch : TntSchemaMh) (k : Bytes) : Option (Option (Nat × Sval)) :=
  match mhFind hash sch.spaceHash.table k with
  | none => none
  | some x =>
    if x = sch.spaceHash.table.nBuckets then some none
    else
      match (sch.spaceHash.table.slots x).node with
      | none => none
      | some nd =>
        match sch.heap[nd.data]? with
        | some (some sval) => some (some (nd.data, sval))
        | _ => none

/-- A new record under its two keys. -/
def TntSchemaMh.addSpace (alloc : Nat → Bool) (sch : TntSchemaMh) (l : Label) : Option TntSchemaMh :=
  match mhPut hash alloc sch.spaceHash ⟨l.name, sch.heap.length⟩ with
  | none => none
  | some h =>
    match mhPut hash alloc h ⟨le32 l.number, sch.heap.length⟩ with
    | none => none
    | some h => some ⟨sch.heap ++ [some ⟨l, .empty⟩], h⟩

/-- An index put into the hash of the record at `a`. -/
def TntSchemaMh.addIndex (sch : TntSchemaMh) (a : Nat) (l : Label) : TntSchemaMh :=
  { sch with heap := sch.heap.modify a (Option.map fun v => { v with index := v.index.put2 l l }) }

section Calls

variable [Msgpuck]

/-- `tnt_schema_add_space`. -/
def tntSchemaAddSpaceMh (alloc : Nat → Bool) (sch : TntSchemaMh) (buf : Bytes) (data : Nat) :
    Option (Int × TntSchemaMh × Nat) :=
  match spaceFields alloc buf data with
  | .undef => none
  | .fail => finish buf data (-1) sch
  | .ok l =>
    match sch.addSpace hash alloc l with
    | none => none
    | some sch => finish buf data 0 sch

/-- `tnt_schema_add_index`. -/
def tntSchemaAddIndexMh (alloc : Nat → Bool) (sch : TntSchemaMh) (buf : Bytes) (data : Nat) :
    Option (Int × TntSchemaMh × Nat) :=
  match indexSpace buf data with
  | .undef => none
  | .fail => finish buf data (-1) sch
  | .ok (sid, tuple) =>
    match spaceAt hash sch (le32 sid) with
    | none => none
    | some none => some (-1, sch, data)
    | some (some (a, _)) =>
      match indexFields alloc buf tuple with
      | .undef => none
      | .fail => finish buf data (-1) sch
      | .ok l => finish buf data 0 (sch.addIndex a l)

/-- `tnt_schema_add_spaces`. -/
def tntSchemaAddSpacesMh (alloc : Nat → Bool) (sch : TntSchemaMh) (data : Bytes) :
    Option (Int × TntSchemaMh) :=
  addRows (tntSchemaAddSpaceMh hash alloc) sch data

/-- `tnt_schema_add_indexes`. -/
def tntSchemaAddIndexesMh (alloc : Nat → Bool) (sch : TntSchemaMh) (data : Bytes) :
    Option (Int × TntSchemaMh) :=
  addRows (tntSchemaAddIndexMh hash alloc) sch data

end Calls

/-- `tnt_schema_stosid`. -/
def tntSchemaStosidMh (sch : TntSchemaMh) (name : Bytes) : Option Int :=
  match spaceAt hash sch name with
  | none => none
  | some none => some (-1)
  | some (some (_, space)) => some (int32 space.label.number)

/-- `tnt_schema_stoiid`. -/
def tntSchemaStoiidMh (sch : TntSchemaMh) (sid : UInt32) (name : Bytes) : Option Int :=
  match spaceAt hash sch (le32 sid.toNat) with
  | none => none
  | some none => some (-1)
  | some (some (_, space)) =>
    match space.index.find name with
    | none => some (-1)
    | some index => some (int32 index.number)

/-- `mh_assoc_find`, and `mh_assoc_del` of what it finds. -/
def dropKey (h : Mh Bytes Nat) (k : Bytes) : Option (Mh Bytes Nat) :=
  match mhFind hash h.table k with
  | none => none
  | some x => if x = h.table.nBuckets then some h else mhDel hash h x

/-- The loop of `tnt_schema_space_free` from slot `pos` on.  To look at a released record is
undefined. -/
def spaceFreeLoop : Nat → Nat → TntSchemaMh → Option TntSchemaMh
  | 0, _, _ => none
  | fuel + 1, pos, sch =>
    if pos < sch.spaceHash.table.nBuckets then
      match (sch.spaceHash.table.slots pos).node with
      | none => none
      | some nd =>
        match sch.heap[nd.data]? with
        | some (some sval) =>
          match dropKey hash sch.spaceHash (le32 sval.label.number) with
          | none => none
          | some h =>
            match dropKey hash h sval.label.name with
            | none => none
            | some h => spaceFreeLoop fuel (mhNext h pos) ⟨sch.heap.set nd.data none, h⟩
        | _ => none
    else some sch

/-- `tnt_schema_flush`.  The position grows, and there are no more slots than in both arrays. -/
def tntSchemaFlush (sch : TntSchemaMh) : Option TntSchemaMh :=
  spaceFreeLoop hash (sch.spaceHash.table.nBuckets + sch.spaceHash.shadow.nBuckets + 1)
    (mhFirst sch.spaceHash) sch

/-- The schemas that calls lead to.  Each call has an allocator of its own. -/
inductive Reached [Msgpuck] : TntSchemaMh → Prop
  | new : Reached tntSchemaNewMh
  | addSpaces {sch sch' : TntSchemaMh} {alloc : Nat → Bool} {data : Bytes} {rc : Int}
      (h : Reached sch) (hcall : tntSchemaAddSpacesMh hash alloc sch data = some (rc, sch')) :
      Reached sch'
  | addIndexes {sch sch' : TntSchemaMh} {alloc : Nat → Bool} {data : Bytes} {rc : Int}
      (h : Reached sch) (hcall : tntSchemaAddIndexesMh hash alloc sch data = some (rc, sch')) :
      Reached sch'

end Code

/-! ## §3 — loading. -/

/-- A node is one of the two keys of a record that is there. -/
def Keyed (heap : List (Option Sval)) (nd : Node Bytes Nat) : Prop :=
  ∃ sval, heap[nd.data]? = some (some sval) ∧
    (nd.key = sval.label.name ∨ nd.key = le32 sval.label.number)

/-- What holds of a schema that has been loaded only, unless it is too large. -/
def Loaded (hash : Bytes → Nat) (sch : TntSchemaMh) : Prop :=
  sch.spaceHash.capacity < 2 ^ 31 → sch.spaceHash.Good hash (Keyed sch.heap) 0

section Load

variable {hash : Bytes → Nat} {alloc : Nat → Bool} {sch sch' : TntSchemaMh}

/-- A node stays a key of its record when records are added, ... -/
theorem Keyed.append {heap : List (Option Sval)} {nd : Node Bytes Nat} (h : Keyed heap nd)
    (new : List (Option Sval)) : Keyed (heap ++ new) nd := by
  obtain ⟨sval, hsval, hkey⟩ := h
  obtain ⟨hlt, -⟩ := List.getElem?_eq_some_iff.mp hsval
  refine ⟨sval, ?_, hkey⟩
  rw [List.getElem?_append_left hlt, hsval]

/-- ... and when the record gets an index. -/
theorem Keyed.addIndex {nd : Node Bytes Nat} (h : Keyed sch.heap nd) (a : Nat) (l : Label) :
    Keyed (sch.addIndex a l).heap nd := by
  obtain ⟨sval, hsval, hkey⟩ := h
  by_cases ha : a = nd.data
  · refine ⟨{ sval with index := sval.index.put2 l l }, ?_, hkey⟩
    show (List.modify sch.heap a _)[nd.data]? = _
    rw [ha, List.getElem?_modify_eq, hsval]
    rfl
  · refine ⟨sval, ?_, hkey⟩
    show (List.modify sch.heap a _)[nd.data]? = _
    rw [List.getElem?_modify_ne _ _ ha, hsval]

/-- What loading keeps: a new schema has it, ... -/
theorem tntSchemaNewMh_loaded : Loaded hash tntSchemaNewMh := fun _ => mhNew_good

/-- **A record is put under both its keys.** -/
theorem Loaded.addSpace (h : Loaded hash sch) {l : Label}
    (hadd : sch.addSpace hash alloc l = some sch') : Loaded hash sch' := by
  rw [TntSchemaMh.addSpace] at hadd
  split at hadd
  · exact absurd hadd (by simp)
  next h₁ hput₁ =>
  split at hadd
  · exact absurd hadd (by simp)
  next h₂ hput₂ =>
  obtain rfl := Option.some.inj hadd
  -- the new record is there before its nodes are
  have hnew : (sch.heap ++ [some ⟨l, .empty⟩])[sch.heap.length]? = some (some ⟨l, .empty⟩) := by
    simp
  have hold : sch.spaceHash.capacity < 2 ^ 31 →
      sch.spaceHash.Good hash (Keyed (sch.heap ++ [some ⟨l, .empty⟩])) 0 :=
    fun hbig => (h hbig).imp fun nd hnd => hnd.append _
  have hname := mhPut_leads hold ⟨_, hnew, .inl rfl⟩ hput₁
  have hnumber := mhPut_leads hname.2 ⟨_, hnew, .inr rfl⟩ hput₂
  exact hnumber.2

/-- ... an index does not touch it, ... -/
theorem Loaded.addIndex (h : Loaded hash sch) (a : Nat) (l : Label) :
    Loaded hash (sch.addIndex a l) :=
  fun hbig => (h hbig).imp fun _ hnd => hnd.addIndex a l

section Calls

variable [Msgpuck]

/-- ... and each row keeps it, of spaces ... -/
theorem Loaded.spaceRow (h : Loaded hash sch) {buf : Bytes} {p q : Nat} {rc : Int}
    (hadd : tntSchemaAddSpaceMh hash alloc sch buf p = some (rc, sch', q)) : Loaded hash sch' := by
  unfold tntSchemaAddSpaceMh at hadd
  split at hadd
  · exact absurd hadd (by simp)
  · rw [finish_eq_some hadd]
    exact h
  · split at hadd
    · exact absurd hadd (by simp)
    · next hspace =>
      rw [finish_eq_some hadd]
      exact h.addSpace hspace

/-- ... and of indexes. -/
theorem Loaded.indexRow (h : Loaded hash sch) {buf : Bytes} {p q : Nat} {rc : Int}
    (hadd : tntSchemaAddIndexMh hash alloc sch buf p = some (rc, sch', q)) : Loaded hash sch' := by
  unfold tntSchemaAddIndexMh at hadd
  split at hadd
  · exact absurd hadd (by simp)
  · rw [finish_eq_some hadd]
    exact h
  · split at hadd
    · exact absurd hadd (by simp)
    · simp only [Option.some.injEq, Prod.mk.injEq] at hadd
      rw [← hadd.2.1]
      exact h
    · split at hadd
      · exact absurd hadd (by simp)
      · rw [finish_eq_some hadd]
        exact h
      · rw [finish_eq_some hadd]
        exact h.addIndex _ _

/-- **Every schema that calls lead to.** -/
theorem Reached.loaded (h : Reached hash sch) : Loaded hash sch := by
  induction h with
  | new => exact tntSchemaNewMh_loaded
  | addSpaces _ hcall ih => exact addRows_keeps (fun h hadd => h.spaceRow hadd) ih hcall
  | addIndexes _ hcall ih => exact addRows_keeps (fun h hadd => h.indexRow hadd) ih hcall

end Calls

end Load

/-! ## §4 — releasing. -/

section Free

variable {hash : Bytes → Nat}

/-- One key out of a hash without a pending resize. -/
theorem dropKey_spec {h : Mh Bytes Nat} (hsettled : h.table.Settled hash)
    (hidle : h.resizePosition = 0) (k : Bytes) :
    ∃ t, dropKey hash h k = some { h with table := t } ∧ t.Settled hash ∧
      t.nBuckets = h.table.nBuckets ∧
      ∀ i < h.table.nBuckets, ∀ nd, (t.slots i).node = some nd ↔
        (h.table.slots i).node = some nd ∧ nd.key ≠ k := by
  obtain ⟨x, hfind, ⟨hx, hhas⟩ | ⟨rfl, hno⟩⟩ := hsettled.find k
  · refine ⟨mhTableDel h.table x, ?_, hsettled.del x, mhTableDel_nBuckets _ _, fun i hi nd => ?_⟩
    · rw [dropKey, hfind]
      simp only [if_neg (Nat.ne_of_lt hx)]
      exact mhDel_of_settled hidle hx
    · rw [mhTableDel_node hx]
      split_ifs with hix
      · subst hix
        obtain ⟨nd', hnd', hk⟩ := hhas
        refine ⟨fun h => absurd h (by simp), ?_⟩
        rintro ⟨hnd, hne⟩
        rw [hnd'] at hnd
        exact absurd (Option.some.inj hnd ▸ hk) hne
      -- no other slot has the key
      · refine ⟨fun hnd => ⟨hnd, fun hk => hix ?_⟩, fun h => h.1⟩
        exact hsettled.sound.distinct hi hx ⟨nd, hnd, hk⟩ hhas
  · refine ⟨h.table, ?_, hsettled, rfl, fun i hi nd => ?_⟩
    · rw [dropKey, hfind]
      exact if_pos rfl
    · exact ⟨fun hnd => ⟨hnd, fun hk => hno i hi ⟨nd, hnd, hk⟩⟩, fun h => h.1⟩

/-- The loop at slot `pos`: the slots before it are empty, and what is in the others belongs to
records that are there. -/
structure Freeing (hash : Bytes → Nat) (sch : TntSchemaMh) (pos : Nat) : Prop where
  settled : sch.spaceHash.table.Settled hash
  idle : sch.spaceHash.resizePosition = 0
  le : pos ≤ sch.spaceHash.table.nBuckets
  keyed : sch.spaceHash.table.All (Keyed sch.heap)
  behind : ∀ i < pos, i < sch.spaceHash.table.nBuckets → (sch.spaceHash.table.slots i).node = none
  here : pos < sch.spaceHash.table.nBuckets → (sch.spaceHash.table.slots pos).node ≠ none

/-- **One turn of the loop.**  The record and its nodes go, whatever slots they are in.  They stand
at slots from the position on, since those before it are empty. -/
theorem Freeing.turn {sch : TntSchemaMh} {pos : Nat} (h : Freeing hash sch pos)
    (hpos : pos < sch.spaceHash.table.nBuckets) :
    ∃ sch' pos', (∀ fuel, spaceFreeLoop hash (fuel + 1) pos sch =
        spaceFreeLoop hash fuel pos' sch') ∧ Freeing hash sch' pos' ∧ pos < pos' ∧
      sch'.spaceHash.table.nBuckets = sch.spaceHash.table.nBuckets := by
  obtain ⟨nd, hnd⟩ := Option.ne_none_iff_exists'.mp (h.here hpos)
  obtain ⟨sval, hsval, hkey⟩ := h.keyed pos hpos nd hnd
  obtain ⟨t₁, hdrop₁, hset₁, hn₁, hleft₁⟩ := dropKey_spec h.settled h.idle (le32 sval.label.number)
  obtain ⟨t₂, hdrop₂, hset₂, hn₂, hleft₂⟩ := @dropKey_spec hash
    { sch.spaceHash with table := t₁ } hset₁ h.idle sval.label.name
  -- what is left has neither key
  have hleft {i : Nat} (hi : i < sch.spaceHash.table.nBuckets) {nd' : Node Bytes Nat} :
      (t₂.slots i).node = some nd' ↔ (sch.spaceHash.table.slots i).node = some nd' ∧
        nd'.key ≠ le32 sval.label.number ∧ nd'.key ≠ sval.label.name := by
    rw [hleft₂ i (by simp only; omega), hleft₁ i hi, and_assoc]
  have hn : t₂.nBuckets = sch.spaceHash.table.nBuckets := hn₂.trans hn₁
  have hgone : (t₂.slots pos).node = none := by
    by_contra hne
    obtain ⟨nd', hnd'⟩ := Option.ne_none_iff_exists'.mp hne
    obtain ⟨hsame, hnum, hname⟩ := (hleft hpos).mp hnd'
    obtain rfl := Option.some.inj (hnd.symm.trans hsame)
    exact hkey.elim hname hnum
  have hempty {i : Nat} (hi : i < sch.spaceHash.table.nBuckets)
      (hnone : (sch.spaceHash.table.slots i).node = none) : (t₂.slots i).node = none := by
    by_contra hne
    obtain ⟨nd', hnd'⟩ := Option.ne_none_iff_exists'.mp hne
    exact absurd (hnone.symm.trans ((hleft hi).mp hnd').1) (by simp)
  obtain ⟨hle, hend, hskip, hstop⟩ :=
    existFrom_spec t₂.slots (t₂.nBuckets - (pos + 1)) (pos + 1)
  have hnext : mhNext { sch.spaceHash with table := t₂ } pos =
      existFrom t₂.slots (t₂.nBuckets - (pos + 1)) (pos + 1) := if_pos (by simp only; omega)
  refine ⟨⟨sch.heap.set nd.data none, { sch.spaceHash with table := t₂ }⟩,
    existFrom t₂.slots (t₂.nBuckets - (pos + 1)) (pos + 1), fun fuel => ?_, ?_, hle, hn⟩
  · rw [spaceFreeLoop, if_pos hpos, hnd]
    simp only [hsval, hdrop₁, hdrop₂, hnext]
  refine ⟨hset₂, h.idle, ?_, ?_, ?_, fun hlt => hstop (by simp only at hlt; omega)⟩
  · simp only
    omega
  · intro i hi nd' hnd'
    have hi' : i < sch.spaceHash.table.nBuckets := hn ▸ hi
    obtain ⟨hold, hnum, hname⟩ := (hleft hi').mp hnd'
    obtain ⟨sval', hsval', hkey'⟩ := h.keyed i hi' nd' hold
    -- the released record has no node left
    have hne : nd.data ≠ nd'.data := by
      intro heq
      rw [heq, hsval'] at hsval
      obtain rfl := Option.some.inj (Option.some.inj hsval)
      exact hkey'.elim hname hnum
    refine ⟨sval', ?_, hkey'⟩
    rw [List.getElem?_set_ne hne, hsval']
  · intro i hlt hi
    have hi' : i < sch.spaceHash.table.nBuckets := hn ▸ hi
    rcases Nat.lt_trichotomy i pos with hbefore | rfl | hafter
    · exact hempty hi' (h.behind i hbefore hi')
    · exact hgone
    · exact hskip i hafter hlt

/-- **The loop comes to the end and leaves no node.**  The position goes up by one at each turn. -/
theorem Freeing.run {sch : TntSchemaMh} {pos : Nat} (h : Freeing hash sch pos) {fuel : Nat}
    (hfuel : sch.spaceHash.table.nBuckets < fuel + pos) :
    ∃ sch', spaceFreeLoop hash fuel pos sch = some sch' ∧ sch'.spaceHash.table.Settled hash ∧
      ∀ i < sch'.spaceHash.table.nBuckets, (sch'.spaceHash.table.slots i).node = none := by
  induction fuel generalizing sch pos with
  | zero =>
    have := h.le
    omega
  | succ fuel ih =>
    by_cases hpos : pos < sch.spaceHash.table.nBuckets
    · obtain ⟨sch₁, pos₁, hturn, hnext, hlt, hn⟩ := h.turn hpos
      rw [hturn]
      exact ih hnext (by omega)
    · refine ⟨sch, ?_, h.settled, fun i hi => h.behind i (by omega) hi⟩
      rw [spaceFreeLoop, if_neg hpos]

/-- Before the walk no slot has been passed. -/
theorem Loaded.freeing {sch : TntSchemaMh} (h : Loaded hash sch)
    (hidle : sch.spaceHash.resizePosition = 0) (hsmall : sch.spaceHash.table.nBuckets < 2 ^ 31) :
    Freeing hash sch (mhFirst sch.spaceHash) := by
  have hcap : sch.spaceHash.capacity = sch.spaceHash.table.nBuckets := by
    rw [Mh.capacity, hidle, if_neg (Nat.lt_irrefl 0)]
  have hgood := h (by omega)
  obtain ⟨-, hend, hskip, hstop⟩ :=
    existFrom_spec sch.spaceHash.table.slots sch.spaceHash.table.nBuckets 0
  refine ⟨hgood.settled hidle hsmall, hidle, ?_, hgood.table.all, ?_, ?_⟩
  · rw [mhFirst]
    omega
  · exact fun i hlt _ => hskip i (Nat.zero_le i) hlt
  · exact fun hlt => hstop (by rw [mhFirst] at hlt; omega)

/-- Nothing is found in an empty hash. -/
theorem spaceAt_empty {sch : TntSchemaMh} (hsettled : sch.spaceHash.table.Settled hash)
    (hnone : ∀ i < sch.spaceHash.table.nBuckets, (sch.spaceHash.table.slots i).node = none)
    (k : Bytes) : spaceAt hash sch k = some none := by
  obtain ⟨x, hfind, ⟨hx, nd, hnd, -⟩ | ⟨rfl, -⟩⟩ := hsettled.find k
  · exact absurd ((hnone x hx).symm.trans hnd) (by simp)
  · rw [spaceAt, hfind]
    exact if_pos rfl

/-- **`tnt_schema_flush` empties every schema that is reached, if no resize is pending.**  The loop
comes to its end, it looks at no record that it has released, and no lookup finds anything after.
The loop walks slots and deletes nodes, two for each record, and the second of these stands
anywhere.  `Freeing` is its invariant, and what goes down is the number of slots that are left. -/
theorem tntSchemaFlush_empties [Msgpuck] (hash : Bytes → Nat) {sch : TntSchemaMh}
    (h : Reached hash sch) (hidle : sch.spaceHash.resizePosition = 0)
    (hsmall : sch.spaceHash.table.nBuckets < 2 ^ 31) :
    ∃ sch', tntSchemaFlush hash sch = some sch' ∧
      (∀ name, tntSchemaStosidMh hash sch' name = some (-1)) ∧
      ∀ sid name, tntSchemaStoiidMh hash sch' sid name = some (-1) := by
  have hfreeing := h.loaded.freeing hidle hsmall
  have hfuel : sch.spaceHash.table.nBuckets < sch.spaceHash.table.nBuckets +
      sch.spaceHash.shadow.nBuckets + 1 + mhFirst sch.spaceHash := by omega
  obtain ⟨sch', hflush, hsettled, hnone⟩ := hfreeing.run hfuel
  refine ⟨sch', hflush, fun name => ?_, fun sid name => ?_⟩
  · rw [tntSchemaStosidMh, spaceAt_empty hsettled hnone]
  · rw [tntSchemaStoiidMh, spaceAt_empty hsettled hnone]

end Free

/-! ## §5 — a resize that is pending. -/

/-- Spaces put in one after the other. -/
def addAll (hash : Bytes → Nat) (alloc : Nat → Bool) : TntSchemaMh → List Label → Option TntSchemaMh
  | sch, [] => some sch
  | sch, l :: ls =>
    match sch.addSpace hash alloc l with
    | none => none
    | some sch => addAll hash alloc sch ls

section Rows

variable [Msgpuck] {hash : Bytes → Nat}

/-- One row, where there is memory. -/
theorem tntSchemaAddSpaceMh_front (sch : TntSchemaMh) (pre post : Bytes) {r : SpaceRow} {bs : Bytes}
    (h : Encodes r.value bs) :
    tntSchemaAddSpaceMh hash (fun _ => true) sch (pre ++ (bs ++ post)) pre.length =
      (sch.addSpace hash (fun _ => true) r.label.narrow).map fun sch =>
        (0, sch, (pre ++ bs).length) := by
  have hfields := spaceFields_front (fun _ => true) pre post h
  rw [if_pos rfl] at hfields
  rw [tntSchemaAddSpaceMh, hfields]
  cases hadd : sch.addSpace hash (fun _ => true) r.label.narrow with
  | none => simp only [hadd, Option.map_none]
  | some sch₁ => simp only [hadd, finish, nextAt_front pre post h, Option.map_some]

/-- Rows of the format, where there is memory, ... -/
theorem addLoop_rows (sch : TntSchemaMh) (pre : Bytes) {rows : List SpaceRow} {body : Bytes}
    (hall : EncodesAll (rows.map SpaceRow.value) body) :
    addLoop (tntSchemaAddSpaceMh hash fun _ => true) (pre ++ body) rows.length pre.length sch =
      (addAll hash (fun _ => true) sch (rows.map fun r => r.label.narrow)).map fun sch =>
        (0, sch) := by
  induction rows generalizing sch pre body with
  | nil => rfl
  | cons r rows ih =>
    obtain ⟨bs, rest, rfl, hr, hrest⟩ := hall.cons_cases
    rw [List.length_cons, addLoop, tntSchemaAddSpaceMh_front sch pre rest hr, List.map_cons, addAll]
    cases sch.addSpace hash (fun _ => true) r.label.narrow with
    | none => rfl
    | some sch₁ =>
      have hnext := ih sch₁ (pre ++ bs) hrest
      rw [List.append_assoc] at hnext
      exact hnext

/-- **`tnt_schema_add_spaces`** on rows of the format, where there is memory. -/
theorem tntSchemaAddSpacesMh_rows (sch : TntSchemaMh) {rows : List SpaceRow} {data : Bytes}
    (hdata : Encodes (.array (rows.map SpaceRow.value)) data) :
    tntSchemaAddSpacesMh hash (fun _ => true) sch data =
      (addAll hash (fun _ => true) sch (rows.map fun r => r.label.narrow)).map fun sch =>
        (0, sch) := by
  obtain ⟨head, body, hall, heq⟩ := addRows_eq sch hdata
  rw [tntSchemaAddSpacesMh, heq, List.append_nil]
  exact addLoop_rows sch head hall

end Rows

/-! A server with one space; and one with 137, numbered from 250 on, of which the first has the four
bytes of its number as its name, so that there are 273 keys and the last of them starts a resize. -/

def testSchema : Option TntSchemaMh := addAll mhHash (fun _ => true) tntSchemaNewMh [testSpace.label]

/-- Nothing is left of a schema of one space. -/
theorem tntSchemaFlush_empties_test :
    ∃ sch sch', testSchema = some sch ∧ tntSchemaFlush mhHash sch = some sch' ∧
      tntSchemaStosidMh mhHash sch' test = some (-1) := by
  have hone : ∃ sch, testSchema = some sch ∧ sch.spaceHash.resizePosition = 0 ∧
      sch.spaceHash.table.nBuckets = 3 := by
    refine ⟨_, rfl, ?_, ?_⟩ <;> decide +kernel
  obtain ⟨sch, hsch, hidle, hn⟩ := hone
  have hcall := @tntSchemaAddSpacesMh_rows Msgpuck.reference mhHash tntSchemaNewMh [testSpace] _
    testSpace_encodes
  have hnarrow : [testSpace].map (fun r => r.label.narrow) = [testSpace.label] := by decide
  have hall : addAll mhHash (fun _ => true) tntSchemaNewMh [testSpace.label] = some sch := hsch
  rw [hnarrow, hall] at hcall
  have hreached := @Reached.addSpaces mhHash Msgpuck.reference _ _ _ _ _
    (@Reached.new mhHash Msgpuck.reference) hcall
  obtain ⟨sch', hflush, hsid, -⟩ := @tntSchemaFlush_empties Msgpuck.reference mhHash sch hreached
    hidle (by omega)
  exact ⟨sch, sch', hsch, hflush, hsid test⟩

/-- The 137 spaces. -/
def manySpaces : List SpaceRow :=
  ⟨⟨le32 250, 250⟩, .uint 1, []⟩ ::
    (List.range 136).map fun i => ⟨⟨[UInt8.ofNat (i + 1)], 251 + i⟩, .uint 1, []⟩

/-- Loaded, released, and looked up again. -/
def afterFlush (labels : List Label) (name : Bytes) : Option Int :=
  match addAll mhHash (fun _ => true) tntSchemaNewMh labels with
  | none => none
  | some sch =>
    match tntSchemaFlush mhHash sch with
    | none => none
    | some sch => tntSchemaStosidMh mhHash sch name

/-- The reply has room for so many, ... -/
theorem manySpaces_fit : (Value.array (manySpaces.map SpaceRow.value)).Fits := by
  have hall (vs : List Value) (h : ∀ v ∈ vs, v.Fits) : FitsAll vs := by
    induction vs with
    | nil => trivial
    | cons v vs ih => exact ⟨h v (by simp), ih fun w hw => h w (by simp [hw])⟩
  refine ⟨by simp [manySpaces], hall _ ?_⟩
  simp only [manySpaces, List.map_cons, List.map_map, List.mem_cons, List.mem_map, List.mem_range,
    forall_eq_or_imp, Function.comp_apply, forall_exists_index, and_imp, forall_apply_eq_imp_iff₂]
  refine ⟨by simp [SpaceRow.value, Value.Fits, FitsAll, le32], fun i hi => ?_⟩
  simp [SpaceRow.value, Value.Fits, FitsAll]
  omega

/-- ... and this comes of loading and releasing it, slot by slot. -/
theorem afterFlush_manySpaces :
    afterFlush (manySpaces.map fun r => r.label.narrow) (le32 250) = some 250 := by
  decide +kernel

/-- **`tnt_schema_flush` leaves the first of 137 spaces.** -/
theorem tntSchemaFlush_leaves_space :
    ∃ data sch sch', Encodes (.array (manySpaces.map SpaceRow.value)) data ∧
      @tntSchemaAddSpacesMh mhHash Msgpuck.reference (fun _ => true) tntSchemaNewMh data =
        some (0, sch) ∧
      @Reached mhHash Msgpuck.reference sch ∧ tntSchemaFlush mhHash sch = some sch' ∧
      tntSchemaStosidMh mhHash sch' (le32 250) = some 250 := by
  have hdata := encodes_encodeWith packed_sound _ manySpaces_fit
  have hcall := @tntSchemaAddSpacesMh_rows Msgpuck.reference mhHash tntSchemaNewMh manySpaces _ hdata
  have hafter := afterFlush_manySpaces
  rw [afterFlush] at hafter
  split at hafter
  · exact absurd hafter (by simp)
  next sch hsch =>
  split at hafter
  · exact absurd hafter (by simp)
  next sch' hflush =>
  rw [hsch] at hcall
  exact ⟨_, sch, sch', hdata, hcall, @Reached.addSpaces mhHash Msgpuck.reference _ _ _ _ _
    (@Reached.new mhHash Msgpuck.reference) hcall, hflush, hafter⟩

end TarantoolC.Schema.Slots
