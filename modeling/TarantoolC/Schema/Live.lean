/-
# TarantoolC.Schema.Live — a schema leads to no record that it has released.

A flush in the middle of a resize leaves some records behind (`TarantoolC.Schema.Flush`), and loads go
on from there.  `Live` is what all of this keeps: the hash is a map (`Mh.Keeps`), and what it maps a
key to is a record that is there and that the key belongs to.  The key of a node is memory of its
record, so this goes for keys as well.

`schema_live`: in every run of loads and flushes, whatever the data are and whatever sizes of blocks
the allocator refuses in each load, every look-up is defined and so is the next flush.  A flush takes
answers away and makes up none, and it takes away all of them unless a resize is pending.

## What is assumed of memory

An allocator is a predicate on sizes here, and each load has one of its own (`Used`), so that memory
may be short at one time and there again at another.  Within one load it does not change its mind: a
name that finds no block is refused whenever it comes up in that load.  A flush asks for nothing.
Records, their nodes and the hashes of their indexes are taken to find memory; the source checks for
each of them, and refuses a row without one as it refuses a row without a block for its name.

## The walk, once more

`Freeing` of `TarantoolC.Schema.Flush` cannot be used here, since with a pending resize the slots
that were passed need not stay empty.  What survives is weaker and enough: a flush takes entries of
the map away and changes none of those that it leaves (`Thins`), and no array gets longer
(`NoLonger`), so that the loop ends.
-/
import TarantoolC.Schema.Refine

namespace TarantoolC.Schema.Slots

open MsgPack Msgpuck Probing Mhash

/-! ## §1 — the runs. -/

/-- The schemas that loads and flushes lead to, and how many rows of spaces were in the data.  Each
load has an allocator of its own. -/
inductive Used [Msgpuck] (hash : Bytes → Nat) : Nat → TntSchemaMh → Prop
  | new : Used hash 0 tntSchemaNewMh
  | addSpaces {n : Nat} {sch sch' : TntSchemaMh} {alloc : Nat → Bool} {data : Bytes} {rc : Int}
      (h : Used hash n sch) (hcall : tntSchemaAddSpacesMh hash alloc sch data = some (rc, sch')) :
      Used hash (n + rowsOf data) sch'
  | addIndexes {n : Nat} {sch sch' : TntSchemaMh} {alloc : Nat → Bool} {data : Bytes} {rc : Int}
      (h : Used hash n sch) (hcall : tntSchemaAddIndexesMh hash alloc sch data = some (rc, sch')) :
      Used hash n sch'
  | flush {n : Nat} {sch sch' : TntSchemaMh} (h : Used hash n sch)
      (hcall : tntSchemaFlush hash sch = some sch') : Used hash n sch'

/-! ## §2 — the invariant. -/

/-- The hash is the map `m`, and every entry is a key of a record that is there. -/
structure Live (hash : Bytes → Nat) (puts : Nat) (m : Bytes → Option Nat) (sch : TntSchemaMh) :
    Prop where
  keeps : sch.spaceHash.Keeps hash m puts 0
  keyed : ∀ k a, m k = some a → Keyed sch.heap ⟨k, a⟩

section Look

variable {hash : Bytes → Nat} {puts : Nat} {m : Bytes → Option Nat} {sch : TntSchemaMh}

/-- What a key finds: nothing, or a record that is there.  There is no third case, of a node whose
record is gone: that would be the use of memory after its release. -/
theorem Live.spaceAt (h : Live hash puts m sch) (k : Bytes) :
    (m k = none ∧ spaceAt hash sch k = some none) ∨
      ∃ a sval, m k = some a ∧ sch.heap[a]? = some (some sval) ∧
        spaceAt hash sch k = some (some (a, sval)) := by
  obtain ⟨x, hfind, ⟨hx, nd, hnd, rfl⟩ | ⟨rfl, hnone⟩⟩ := h.keeps.table.find h.keeps.notFull k
  · have hentry : m nd.key = some nd.data := h.keeps.table.maps.holds hx hnd
    obtain ⟨sval, hsval, -⟩ := h.keyed _ _ hentry
    refine .inr ⟨nd.data, sval, hentry, hsval, ?_⟩
    simp only [Slots.spaceAt, hfind, if_neg (Nat.ne_of_lt hx), hnd, hsval]
  · refine .inl ⟨hnone, ?_⟩
    simp only [Slots.spaceAt, hfind, if_true]

/-- So both look-ups are defined. -/
theorem Live.stosid (h : Live hash puts m sch) (name : Bytes) :
    ∃ v, tntSchemaStosidMh hash sch name = some v := by
  rw [tntSchemaStosidMh]
  rcases h.spaceAt name with ⟨-, hfound⟩ | ⟨a, sval, -, -, hfound⟩
  · exact ⟨-1, by rw [hfound]⟩
  · exact ⟨int32 sval.label.number, by rw [hfound]⟩

/-- The look-up of an index is defined, too.  The record that is found by the number has the hash of
indexes in it. -/
theorem Live.stoiid (h : Live hash puts m sch) (sid : UInt32) (name : Bytes) :
    ∃ v, tntSchemaStoiidMh hash sch sid name = some v := by
  rw [tntSchemaStoiidMh]
  rcases h.spaceAt (le32 sid.toNat) with ⟨-, hfound⟩ | ⟨a, sval, -, -, hfound⟩
  · exact ⟨-1, by rw [hfound]⟩
  · rw [hfound]
    cases hindex : sval.index.find name with
    | none => exact ⟨-1, by simp only [hindex]⟩
    | some l => exact ⟨int32 l.number, by simp only [hindex]⟩

/-- Some of the entries, with the records as they were.  What a flush can do to the map.  The heap
may lose records, but none that is still an entry. -/
def Thins (m : Bytes → Option Nat) (sch : TntSchemaMh) (m' : Bytes → Option Nat) (sch' : TntSchemaMh) :
    Prop :=
  ∀ k a, m' k = some a → m k = some a ∧ sch'.heap[a]? = sch.heap[a]?

/-- A key finds what it found before, or nothing any more.  This is what a caller can see of a flush
that leaves some spaces. -/
theorem Thins.spaceAt {m' : Bytes → Option Nat} {sch' : TntSchemaMh} (ht : Thins m sch m' sch')
    (h : Live hash puts m sch) (h' : Live hash puts m' sch') (k : Bytes) :
    Slots.spaceAt hash sch' k = Slots.spaceAt hash sch k ∨
      Slots.spaceAt hash sch' k = some none := by
  rcases h'.spaceAt k with ⟨-, hnone⟩ | ⟨a, sval, hentry, hsval, hfound⟩
  · exact .inr hnone
  · obtain ⟨hold, hsame⟩ := ht k a hentry
    rw [hsame] at hsval
    rcases h.spaceAt k with ⟨hno, -⟩ | ⟨a', sval', hentry', hsval', hfound'⟩
    · rw [hold] at hno
      cases hno
    · obtain rfl := Option.some.inj (hold.symm.trans hentry')
      obtain rfl := Option.some.inj (Option.some.inj (hsval.symm.trans hsval'))
      exact .inl (hfound.trans hfound'.symm)

end Look

/-! ## §3 — loads. -/

/-- ... for some map. -/
def Alive (hash : Bytes → Nat) (puts : Nat) (sch : TntSchemaMh) : Prop := ∃ m, Live hash puts m sch

section Load

variable {hash : Bytes → Nat} {puts : Nat} {sch sch' : TntSchemaMh} {alloc : Nat → Bool}

/-- More puts may be allowed for. -/
theorem Alive.more (h : Alive hash puts sch) {puts' : Nat} (hle : puts ≤ puts') :
    Alive hash puts' sch := by
  obtain ⟨m, hlive⟩ := h
  exact ⟨m, hlive.keeps.more hle, hlive.keyed⟩

/-- A node of a record that is there, put or refused.  A refused put leaves the map as it was, and
that is alive, too. -/
theorem Live.put {m : Bytes → Option Nat} (h : Live hash puts m sch) (hputs : puts < 2 ^ 29)
    {k : Bytes} {a : Nat} (hkey : Keyed sch.heap ⟨k, a⟩) {h' : Mh Bytes Nat}
    (hput : mhPut hash alloc sch.spaceHash ⟨k, a⟩ = some h') :
    ∃ m', Live hash (puts + 1) m' { sch with spaceHash := h' } := by
  obtain ⟨h₁, m', hrun, hdoes, hkeeps⟩ := h.keeps.put hputs alloc ⟨k, a⟩
  obtain rfl := Option.some.inj (hrun.symm.trans hput)
  refine ⟨m', hkeeps, fun k' a' hentry => ?_⟩
  cases hdoes with
  | put =>
    by_cases hk : k' = k
    · subst hk
      rw [Function.update_self, Option.some.injEq] at hentry
      exact hentry ▸ hkey
    · rw [Function.update_of_ne hk] at hentry
      exact h.keyed k' a' hentry
  | refused => exact h.keyed k' a' hentry

/-- **A record under its two keys.**  The record comes first, so that the key belongs to one that is
there when its node is put.  A node it replaces belonged to another record, which stays on the heap
without it. -/
theorem Alive.addSpace (h : Alive hash puts sch) (hputs : puts + 2 ≤ 2 ^ 29) {l : Label}
    (hadd : sch.addSpace hash alloc l = some sch') : Alive hash (puts + 2) sch' := by
  obtain ⟨m, hlive⟩ := h
  rw [TntSchemaMh.addSpace] at hadd
  split at hadd
  · cases hadd
  next h₁ hput₁ =>
  split at hadd
  · cases hadd
  next h₂ hput₂ =>
  obtain rfl := Option.some.inj hadd
  have hnew : (sch.heap ++ [some ⟨l, .empty⟩])[sch.heap.length]? = some (some ⟨l, .empty⟩) := by
    simp
  have hheap : Live hash puts m { sch with heap := sch.heap ++ [some ⟨l, .empty⟩] } :=
    ⟨hlive.keeps, fun k a hentry => (hlive.keyed k a hentry).append _⟩
  obtain ⟨m₁, hlive₁⟩ := hheap.put (by omega) ⟨_, hnew, .inl rfl⟩ hput₁
  obtain ⟨m₂, hlive₂⟩ := hlive₁.put (by omega) ⟨_, hnew, .inr rfl⟩ hput₂
  exact ⟨m₂, hlive₂⟩

/-- An index is put into a record that is there. -/
theorem Alive.addIndex (h : Alive hash puts sch) (a : Nat) (l : Label) :
    Alive hash puts (sch.addIndex a l) := by
  obtain ⟨m, hlive⟩ := h
  exact ⟨m, hlive.keeps, fun k b hentry => (hlive.keyed k b hentry).addIndex a l⟩

section Rows

variable [Msgpuck]

/-- **A row of spaces.**  Whichever way it ends.  A row that is refused takes no puts, but two are
allowed for each. -/
theorem Alive.spaceRow (h : Alive hash puts sch) (hputs : puts + 2 ≤ 2 ^ 29) {buf : Bytes}
    {p q : Nat} {rc : Int} (hadd : tntSchemaAddSpaceMh hash alloc sch buf p = some (rc, sch', q)) :
    Alive hash (puts + 2) sch' := by
  unfold tntSchemaAddSpaceMh at hadd
  split at hadd
  · cases hadd
  · rw [finish_eq_some hadd]
    exact h.more (Nat.le_add_right _ _)
  · split at hadd
    · cases hadd
    · next hspace =>
      rw [finish_eq_some hadd]
      exact h.addSpace hputs hspace

/-- **A row of indexes.**  No node of the hash of spaces is touched, so there is no put to count. -/
theorem Alive.indexRow (h : Alive hash puts sch) {buf : Bytes} {p q : Nat} {rc : Int}
    (hadd : tntSchemaAddIndexMh hash alloc sch buf p = some (rc, sch', q)) :
    Alive hash puts sch' := by
  unfold tntSchemaAddIndexMh at hadd
  split at hadd
  · cases hadd
  · rw [finish_eq_some hadd]
    exact h
  · split at hadd
    · cases hadd
    · cases hadd
      exact h
    · split at hadd
      · cases hadd
      · rw [finish_eq_some hadd]
        exact h
      · rw [finish_eq_some hadd]
        exact h.addIndex _ _

omit [Msgpuck] in
/-- The loop over rows, each of which takes `c` puts.  By induction on the rows, for spaces and for
indexes at once. -/
theorem Alive.addLoop {c : Nat} {add : TntSchemaMh → Bytes → Nat → Option (Int × TntSchemaMh × Nat)}
    (hadd : ∀ {puts : Nat} {sch sch' : TntSchemaMh} {buf : Bytes} {p q : Nat} {rc : Int},
      Alive hash puts sch → puts + c ≤ 2 ^ 29 → add sch buf p = some (rc, sch', q) →
      Alive hash (puts + c) sch')
    (h : Alive hash puts sch) {data : Bytes} {n p : Nat} (hputs : puts + c * n ≤ 2 ^ 29) {rc : Int}
    (hloop : addLoop add data n p sch = some (rc, sch')) : Alive hash (puts + c * n) sch' := by
  induction n generalizing p sch puts with
  | zero =>
    cases hloop
    exact h
  | succ n ih =>
    rw [Nat.mul_succ] at hputs ⊢
    rw [Schema.addLoop] at hloop
    split at hloop
    · cases hloop
    next rc₁ sch₁ q hone =>
    have hnext := hadd h (by omega) hone
    split_ifs at hloop
    · cases hloop
      exact hnext.more (by omega)
    · exact (ih hnext (by omega) hloop).more (by omega)

/-- The data of a reply.  If they are not MsgPack, or no array, nothing is loaded. -/
theorem Alive.addRows {c : Nat} {add : TntSchemaMh → Bytes → Nat → Option (Int × TntSchemaMh × Nat)}
    (hadd : ∀ {puts : Nat} {sch sch' : TntSchemaMh} {buf : Bytes} {p q : Nat} {rc : Int},
      Alive hash puts sch → puts + c ≤ 2 ^ 29 → add sch buf p = some (rc, sch', q) →
      Alive hash (puts + c) sch')
    (h : Alive hash puts sch) {data : Bytes} (hputs : puts + c * rowsOf data ≤ 2 ^ 29) {rc : Int}
    (hrows : addRows add sch data = some (rc, sch')) :
    Alive hash (puts + c * rowsOf data) sch' := by
  have hstay : ∀ k, Alive hash (puts + k) sch := fun k => h.more (Nat.le_add_right _ _)
  rw [Schema.addRows] at hrows
  split at hrows
  · cases hrows
    exact hstay _
  next len hcheck =>
  split at hrows
  · cases hrows
  · cases hrows
    exact hstay _
  · next n p hdec =>
    have hn : rowsOf data = n := by
      rw [rowsOf, hcheck, hdec]
    rw [hn] at hputs ⊢
    exact h.addLoop hadd hputs hrows

end Rows

end Load

/-! ## §4 — a flush. -/

section Flush

variable {hash : Bytes → Nat} {h h' : Mh Bytes Nat}

/-- Neither array is longer than `bound`. -/
def NoLonger (bound : Nat) (h : Mh Bytes Nat) : Prop :=
  h.table.nBuckets ≤ bound ∧ h.shadow.nBuckets ≤ bound

/-- A batch of a resize moves nodes, and keeps the length of the array, ... -/
theorem moveFrom_buckets {t s s' : MhTable Bytes Nat} {left batch i : Nat} {stop : Option Nat}
    (hmove : moveFrom hash t left batch i s = some (stop, s')) : s'.nBuckets = s.nBuckets := by
  induction left generalizing batch i s with
  | zero =>
    cases hmove
    rfl
  | succ left ih =>
    cases batch with
    | zero =>
      cases hmove
      rfl
    | succ batch =>
      rw [moveFrom] at hmove
      split at hmove
      · exact ih hmove
      · split at hmove
        · cases hmove
        · next s₁ hone =>
          have hrest := ih hmove
          rw [mhMove] at hone
          split at hone
          · cases hone
          · cases hone
            exact hrest

/-- After a batch the array is as long as it was, or as long as the shadow.  The latter is how a
resize ends: the new array takes the old one's place. -/
theorem mhResize_buckets (hresize : mhResize hash h = some h') :
    (h'.table.nBuckets = h.table.nBuckets ∨ h'.table.nBuckets = h.shadow.nBuckets) ∧
      h'.shadow.nBuckets = h.shadow.nBuckets := by
  rw [mhResize] at hresize
  split at hresize
  · cases hresize
  · next i s hmove =>
    cases hresize
    exact ⟨.inl rfl, moveFrom_buckets hmove⟩
  · next s hmove =>
    have hsame := moveFrom_buckets hmove
    cases hresize
    exact ⟨.inr hsame, hsame⟩

/-- ... as does a deletion in it, ... -/
theorem mhTableDel_buckets (t : MhTable Bytes Nat) (x : Nat) :
    (mhTableDel t x).nBuckets = t.nBuckets := by
  rw [mhTableDel]
  split_ifs <;> rfl

/-- ... so after a deletion the arrays are as long as before, or the new one has taken the old one's
place. -/
theorem mhDel_buckets {x : Nat} (hdel : mhDel hash h x = some h') :
    (h'.table.nBuckets = h.table.nBuckets ∨
        0 < h.resizePosition ∧ h'.table.nBuckets = h.shadow.nBuckets) ∧
      h'.shadow.nBuckets = h.shadow.nBuckets := by
  rw [mhDel] at hdel
  split at hdel
  · cases hdel
    exact ⟨.inl rfl, rfl⟩
  · simp only at hdel
    split_ifs at hdel with hx hpos
    · cases hdel
      exact ⟨.inl rfl, rfl⟩
    · rw [mhDelResize] at hdel
      split at hdel
      · cases hdel
      · obtain ⟨htable, hshadow⟩ := mhResize_buckets hdel
        simp only [mhTableDel_buckets] at htable hshadow
        exact ⟨htable.imp_right fun h => ⟨hpos, h⟩, hshadow⟩
    · cases hdel
      exact ⟨.inl (mhTableDel_buckets _ _), rfl⟩

/-- **A key is taken out of the hash**, whatever becomes of a resize.  The resize may come to its
end in it, and then the array is another one. -/
theorem dropKey_keeps {m : Bytes → Option Nat} {puts bound : Nat} (hk : h.Keeps hash m puts 0)
    (hlength : NoLonger bound h) (k : Bytes) :
    ∃ h', dropKey hash h k = some h' ∧ h'.Keeps hash (Function.update m k none) puts 0 ∧
      NoLonger bound h' ∧ h.table.nBuckets ≤ h'.table.nBuckets := by
  obtain ⟨x, hfind, ⟨hx, nd, hnd, rfl⟩ | ⟨rfl, hnone⟩⟩ := hk.table.find hk.notFull k
  · obtain ⟨h', hdel, hkeeps⟩ := hk.del hx hnd
    obtain ⟨htable, hshadow⟩ := mhDel_buckets hdel
    obtain ⟨hle, hle'⟩ := hlength
    refine ⟨h', ?_, hkeeps, ⟨?_, by omega⟩, ?_⟩
    · rw [dropKey, hfind]
      simp only [if_neg (Nat.ne_of_lt hx), hdel]
    · omega
    · rcases htable with hsame | ⟨hpos, hswapped⟩
      · exact Nat.le_of_eq hsame.symm
      · have hgrows := (hk.pending hpos).grows
        omega
  · have hsame : Function.update m k none = m := Function.update_eq_self_iff.mpr hnone.symm
    refine ⟨h, ?_, hsame.symm ▸ hk, hlength, Nat.le_refl _⟩
    rw [dropKey, hfind]
    exact if_pos rfl

variable {puts bound : Nat} {m : Bytes → Option Nat} {sch : TntSchemaMh}

/-- **One turn of the loop**: a record goes, with both its keys.  Its two keys may be one, and each
of them may have been overwritten by another record. -/
theorem Live.turn (hl : Live hash puts m sch) (hlength : NoLonger bound sch.spaceHash) {pos : Nat}
    (hpos : pos < sch.spaceHash.table.nBuckets)
    (hhere : (sch.spaceHash.table.slots pos).node ≠ none) :
    ∃ m' sch' pos', (∀ fuel, spaceFreeLoop hash (fuel + 1) pos sch =
        spaceFreeLoop hash fuel pos' sch') ∧
      Live hash puts m' sch' ∧ Thins m sch m' sch' ∧ NoLonger bound sch'.spaceHash ∧ pos < pos' ∧
      (pos' < sch'.spaceHash.table.nBuckets →
        (sch'.spaceHash.table.slots pos').node ≠ none) := by
  obtain ⟨nd, hnd⟩ := Option.ne_none_iff_exists'.mp hhere
  obtain ⟨sval, hsval, -⟩ := hl.keyed _ _ (hl.keeps.table.maps.holds hpos hnd)
  obtain ⟨h₁, hdrop₁, hk₁, hw₁, hle₁⟩ := dropKey_keeps hl.keeps hlength (le32 sval.label.number)
  obtain ⟨h₂, hdrop₂, hk₂, hw₂, hle₂⟩ := dropKey_keeps hk₁ hw₁ sval.label.name
  -- an entry that is left belongs to another record
  have hleft : ∀ k a, Function.update (Function.update m (le32 sval.label.number) none)
      sval.label.name none k = some a → m k = some a ∧ nd.data ≠ a := by
    intro k a hentry
    have hname : k ≠ sval.label.name := by
      rintro rfl
      rw [Function.update_self] at hentry
      cases hentry
    rw [Function.update_of_ne hname] at hentry
    have hnumber : k ≠ le32 sval.label.number := by
      rintro rfl
      rw [Function.update_self] at hentry
      cases hentry
    rw [Function.update_of_ne hnumber] at hentry
    refine ⟨hentry, ?_⟩
    rintro rfl
    obtain ⟨sval', hsval', hkey⟩ := hl.keyed _ _ hentry
    obtain rfl := Option.some.inj (Option.some.inj (hsval.symm.trans hsval'))
    exact hkey.elim hname hnumber
  have hheap : ∀ a, nd.data ≠ a → (sch.heap.set nd.data none)[a]? = sch.heap[a]? :=
    fun a hne => List.getElem?_set_ne hne
  obtain ⟨hge, hend, -, hstop⟩ :=
    existFrom_spec h₂.table.slots (h₂.table.nBuckets - (pos + 1)) (pos + 1)
  have hnext : mhNext h₂ pos =
      existFrom h₂.table.slots (h₂.table.nBuckets - (pos + 1)) (pos + 1) := if_pos (by omega)
  refine ⟨_, ⟨sch.heap.set nd.data none, h₂⟩, mhNext h₂ pos, fun fuel => ?_, ⟨hk₂, ?_⟩, ?_, hw₂,
    ?_, ?_⟩
  · rw [spaceFreeLoop, if_pos hpos, hnd]
    simp only [hsval, hdrop₁, hdrop₂]
  · intro k a hentry
    obtain ⟨hold, hne⟩ := hleft k a hentry
    obtain ⟨sval', hsval', hkey⟩ := hl.keyed k a hold
    exact ⟨sval', (hheap a hne).trans hsval', hkey⟩
  · intro k a hentry
    obtain ⟨hold, hne⟩ := hleft k a hentry
    exact ⟨hold, hheap a hne⟩
  · rw [hnext]
    exact hge
  · rw [hnext]
    exact fun hlt => hstop (by simp only at hlt; omega)

/-- **The loop ends**, also over another array than it has begun with.  No array of the run is
longer than the bound that the loop has been given. -/
theorem Live.run (hl : Live hash puts m sch) (hlength : NoLonger bound sch.spaceHash) {pos : Nat}
    (hhere : pos < sch.spaceHash.table.nBuckets →
      (sch.spaceHash.table.slots pos).node ≠ none) {fuel : Nat} (hfuel : bound < fuel + pos)
    (hpos : 0 < fuel) :
    ∃ m' sch', spaceFreeLoop hash fuel pos sch = some sch' ∧ Live hash puts m' sch' ∧
      Thins m sch m' sch' := by
  induction fuel generalizing m sch pos with
  | zero => exact absurd hpos (Nat.lt_irrefl 0)
  | succ fuel ih =>
    by_cases hlt : pos < sch.spaceHash.table.nBuckets
    · obtain ⟨m₁, sch₁, pos₁, hturn, hl₁, hthin₁, hlength₁, hnext, hhere₁⟩ :=
        hl.turn hlength hlt (hhere hlt)
      have hle := hlength.1
      obtain ⟨m', sch', hrun, hl', hthin'⟩ := ih hl₁ hlength₁ hhere₁ (by omega) (by omega)
      refine ⟨m', sch', (hturn fuel).trans hrun, hl', fun k a hentry => ?_⟩
      obtain ⟨hentry₁, hsame₁⟩ := hthin' k a hentry
      obtain ⟨hold, hsame⟩ := hthin₁ k a hentry₁
      exact ⟨hold, hsame₁.trans hsame⟩
    · refine ⟨m, sch, ?_, hl, fun k a hentry => ⟨hentry, rfl⟩⟩
      rw [spaceFreeLoop, if_neg hlt]

/-- **`tnt_schema_flush`** comes to its end.  With what it has left, if a resize was pending. -/
theorem Live.flush (hl : Live hash puts m sch) :
    ∃ m' sch', tntSchemaFlush hash sch = some sch' ∧ Live hash puts m' sch' ∧
      Thins m sch m' sch' := by
  obtain ⟨-, -, -, hstop⟩ :=
    existFrom_spec sch.spaceHash.table.slots sch.spaceHash.table.nBuckets 0
  have hlength : NoLonger (sch.spaceHash.table.nBuckets + sch.spaceHash.shadow.nBuckets)
      sch.spaceHash := ⟨Nat.le_add_right _ _, Nat.le_add_left _ _⟩
  have hhere : mhFirst sch.spaceHash < sch.spaceHash.table.nBuckets →
      (sch.spaceHash.table.slots (mhFirst sch.spaceHash)).node ≠ none :=
    fun hlt => hstop (by rw [mhFirst] at hlt; omega)
  rw [tntSchemaFlush]
  exact hl.run hlength hhere (by omega) (Nat.succ_pos _)

/-- Without a resize the loop leaves nothing.  Then `Freeing` is to be had after all, and with it
the stronger result on a flush. -/
theorem Live.freeing (hl : Live hash puts m sch) (hidle : sch.spaceHash.resizePosition = 0) :
    Freeing hash sch (mhFirst sch.spaceHash) := by
  have htable := hl.keeps.table
  have hopen := hasOpen_of_touched (Nat.lt_of_le_of_lt htable.touched_le hl.keeps.notFull)
  obtain ⟨-, hend, hskip, hstop⟩ :=
    existFrom_spec sch.spaceHash.table.slots sch.spaceHash.table.nBuckets 0
  refine ⟨⟨htable.prime, htable.small, htable.sound, hopen⟩, hidle, ?_, ?_, ?_, ?_⟩
  · rw [mhFirst]
    omega
  · exact fun i hi nd hnd => hl.keyed _ _ (htable.maps.holds hi hnd)
  · exact fun i hlt _ => hskip i (Nat.zero_le i) hlt
  · exact fun hlt => hstop (by rw [mhFirst] at hlt; omega)

end Flush

/-! ## §5 — every run. -/

section Runs

variable [Msgpuck] {hash : Bytes → Nat}

/-- Every schema in use is alive.  By induction on the run, with two puts for each row of spaces.
The bound on the rows keeps the sizes of the arrays within the list of primes. -/
theorem Used.alive {n : Nat} {sch : TntSchemaMh} (h : Used hash n sch) (hrows : n ≤ 2 ^ 28) :
    Alive hash (2 * n) sch := by
  induction h with
  | new => exact ⟨_, mhNew_keeps, fun _ _ hentry => by cases hentry⟩
  | addSpaces _ hcall ih =>
    have hload := (ih (by omega)).addRows (fun h hputs => h.spaceRow hputs) (by omega) hcall
    rwa [← Nat.mul_add] at hload
  | addIndexes _ hcall ih =>
    have hload := @Alive.addRows hash _ _ _ _ 0 _ (fun h _ hadd => h.indexRow hadd) (ih hrows) _
      (by omega) _ hcall
    rwa [Nat.zero_mul] at hload
  | flush _ hcall ih =>
    obtain ⟨m, hlive⟩ := ih hrows
    obtain ⟨m', sch', hflush, hlive', -⟩ := hlive.flush
    obtain rfl := Option.some.inj (hflush.symm.trans hcall)
    exact ⟨m', hlive'⟩

/-- **No run of loads and flushes leads to a record that was released.**  For every hash function,
all data, well formed or not, with at most `2 ^ 28` rows of spaces, and whatever sizes of blocks the
allocator has refused in each of the loads: each look-up is defined, and so is the next flush.
After it a look-up answers what it did before or -1, and always -1 if no resize was pending.  In a
flush with a pending resize entries are left over, but none of them is stale: their records are
still there.  This is what makes the next load and the next flush defined. -/
theorem schema_live {n : Nat} {sch : TntSchemaMh} (h : Used hash n sch) (hrows : n ≤ 2 ^ 28) :
    ∃ sch', tntSchemaFlush hash sch = some sch' ∧
      (∀ name, ∃ v, tntSchemaStosidMh hash sch name = some v ∧
        (tntSchemaStosidMh hash sch' name = some v ∨ tntSchemaStosidMh hash sch' name = some (-1))) ∧
      (∀ sid name, ∃ v, tntSchemaStoiidMh hash sch sid name = some v ∧
        (tntSchemaStoiidMh hash sch' sid name = some v ∨
          tntSchemaStoiidMh hash sch' sid name = some (-1))) ∧
      (sch.spaceHash.resizePosition = 0 →
        (∀ name, tntSchemaStosidMh hash sch' name = some (-1)) ∧
        ∀ sid name, tntSchemaStoiidMh hash sch' sid name = some (-1)) := by
  obtain ⟨m, hlive⟩ := h.alive hrows
  obtain ⟨m', sch', hflush, hlive', hthin⟩ := hlive.flush
  refine ⟨sch', hflush, fun name => ?_, fun sid name => ?_, fun hidle => ?_⟩
  · -- a flush takes records away and changes none, so an answer stays or is -1
    obtain ⟨v, hv⟩ := hlive.stosid name
    refine ⟨v, hv, ?_⟩
    rcases hthin.spaceAt hlive hlive' name with hsame | hnone
    · left
      rw [← hv, tntSchemaStosidMh, tntSchemaStosidMh, hsame]
    · right
      rw [tntSchemaStosidMh, hnone]
  · obtain ⟨v, hv⟩ := hlive.stoiid sid name
    refine ⟨v, hv, ?_⟩
    rcases hthin.spaceAt hlive hlive' (le32 sid.toNat) with hsame | hnone
    · left
      rw [← hv, tntSchemaStoiidMh, tntSchemaStoiidMh, hsame]
    · right
      rw [tntSchemaStoiidMh, hnone]
  · -- without a pending resize the stronger invariant of the walk is there
    obtain ⟨sch₁, hrun, hsettled, hnone⟩ := (hlive.freeing hidle).run
      (show _ < sch.spaceHash.table.nBuckets + sch.spaceHash.shadow.nBuckets + 1 +
        mhFirst sch.spaceHash by omega)
    obtain rfl := Option.some.inj (hrun.symm.trans hflush)
    refine ⟨fun name => ?_, fun sid name => ?_⟩
    · rw [tntSchemaStosidMh, spaceAt_empty hsettled hnone]
    · rw [tntSchemaStoiidMh, spaceAt_empty hsettled hnone]

/-- A reply of the format has as many rows as its array has elements.  So the bound can be given in
rows that a reader of the format sees. -/
theorem rowsOf_array {vs : List Value} {data : Bytes} (hdata : Encodes (.array vs) data) :
    rowsOf data = vs.length := by
  have hcheck := mpCheck_front hdata []
  have htype := expectType_front [] [] hdata
  rw [List.append_nil] at hcheck htype
  obtain ⟨b, l, ds, body, rfl, hlead, hl, -⟩ := hdata.array_cases
  have hdec := decodeArrayAt_front [] body hlead hl
  simp only [List.nil_append, List.length_nil, Value.ty] at htype hdec
  rw [rowsOf, hcheck]
  simp only [htype, hdec, Outcome.ok_bind]

end Runs

/-- A flush that leaves a space, and another flush. -/
theorem schema_live_many :
    ∃ data sch sch' sch'', @tntSchemaAddSpacesMh mhHash Msgpuck.reference (fun _ => true)
        tntSchemaNewMh data = some (0, sch) ∧
      tntSchemaFlush mhHash sch = some sch' ∧
      tntSchemaStosidMh mhHash sch' (le32 250) = some 250 ∧
      tntSchemaFlush mhHash sch' = some sch'' ∧
      (tntSchemaStosidMh mhHash sch'' (le32 250) = some 250 ∨
        tntSchemaStosidMh mhHash sch'' (le32 250) = some (-1)) := by
  have hdata := encodes_encodeWith packed_sound _ manySpaces_fit
  have hcall := @tntSchemaAddSpacesMh_rows Msgpuck.reference mhHash tntSchemaNewMh manySpaces _ hdata
  have hafter := afterFlush_manySpaces
  rw [afterFlush] at hafter
  split at hafter
  · cases hafter
  next sch hsch =>
  split at hafter
  · cases hafter
  next sch' hflush =>
  rw [hsch] at hcall
  have hused := @Used.flush Msgpuck.reference mhHash _ _ _
    (@Used.addSpaces Msgpuck.reference mhHash _ _ _ _ _ _ (@Used.new Msgpuck.reference mhHash) hcall)
    hflush
  have hrows := @rowsOf_array Msgpuck.reference _ _ hdata
  obtain ⟨sch'', hagain, hsid, -⟩ := @schema_live Msgpuck.reference mhHash _ _ hused
    (by rw [hrows, List.length_map]; simp [manySpaces])
  obtain ⟨v, hv, hends⟩ := hsid (le32 250)
  rw [hafter] at hv
  cases hv
  exact ⟨_, sch, sch', sch'', hcall, hflush, hafter, hagain, hends⟩

end TarantoolC.Schema.Slots
