/-
# TarantoolC.Schema.Refine — the schema over its slots does what the schema of tables does.

`TarantoolC.Schema.Load` takes the hash of spaces by what it does, `TarantoolC.Schema.Flush` by its
arrays and its resize.  `Sim` is between the two: the same records, and a hash that is the map of the
table (`Mh.Keeps`).  Every row of a reply keeps it (`Sim.addSpace`, `Sim.addIndex`), whatever the row
is, and whether it is added, refused or read past the end of the data.

`slots_refine`: over any sequence of loads the results are the same, and so are the answers to both
look-ups.  So what is known of the tables is known of the code.

There is memory (`Plentiful`), as there is for the tables: a block for every size but perhaps 0.  That
exception is no matter of memory.  The allocator of the library has no block of size 0, which is why a
row without a name is refused, by both models and in the same way.

A reply can be cut off anywhere, and then both models have to be undefined at the same place.  This
is why the simulation is stated of rows of BYTES (`Same`), and not of the rows a server means: what
a row does is decided by the same readers in both, and `Sim` only has to survive the two ways in
which it is put in.  `puts` bounds how often the hash has been asked to store, which keeps the table
below the sizes from which on `mh_int_t` would wrap.
-/
import TarantoolC.Mhash.Map
import TarantoolC.Schema.Flush

namespace TarantoolC.Schema.Slots

open MsgPack Msgpuck Probing Mhash

/-- Memory for everything, if "everything" is more than nothing. -/
def Plentiful (alloc : Nat → Bool) : Prop := ∀ n, 0 < n → alloc n = true

/-- The library's allocator has memory for every name but the empty one. -/
theorem customRealloc_plentiful : Plentiful customRealloc := by
  intro n hpos
  simp only [customRealloc, bne_iff_ne, ne_eq]
  omega

/-! ## §1 — the relation. -/

/-- The schema over its slots, and the schema of tables. -/
structure Sim (hash : Bytes → Nat) (puts : Nat) (s : TntSchemaMh) (t : TntSchema) : Prop where
  heap : s.heap = t.heap.map some
  wf : t.WF
  keeps : s.spaceHash.Keeps hash (fun k => t.spaceHash.find k) puts 0

section Sim

variable {hash : Bytes → Nat} {alloc : Nat → Bool} {puts : Nat} {s : TntSchemaMh} {t : TntSchema}

/-- A new schema is a new schema. -/
theorem sim_new : Sim hash 0 tntSchemaNewMh tntSchemaNew :=
  ⟨rfl, tntSchemaNew_wf, mhNew_keeps⟩

/-- With memory, `mh_put` sets its entry. -/
theorem keeps_put (halloc : Plentiful alloc) {h : Mh Bytes Nat} {m : Bytes → Option Nat}
    (hk : h.Keeps hash m puts 0) (hputs : puts < 2 ^ 29) (k : Bytes) (a : Nat) :
    ∃ h', mhPut hash alloc h ⟨k, a⟩ = some h' ∧
      h'.Keeps hash (Function.update m k (some a)) (puts + 1) 0 := by
  obtain ⟨h', m', hrun, hdoes, hkeeps⟩ := hk.put hputs alloc ⟨k, a⟩
  cases hdoes with
  | put => exact ⟨h', hrun, hkeeps⟩
  | @refused _ _ n hpos hn =>
    rw [halloc n hpos] at hn
    cases hn

/-- A record under two keys. -/
theorem Sim.addSpace (h : Sim hash puts s t) (halloc : Plentiful alloc)
    (hputs : puts + 2 ≤ 2 ^ 29) (l : Label) :
    ∃ s', s.addSpace hash alloc l = some s' ∧ Sim hash (puts + 2) s' (t.addSpace l) := by
  have hlen : s.heap.length = t.heap.length := by rw [h.heap, List.length_map]
  obtain ⟨h₁, hrun₁, hk₁⟩ := keeps_put halloc h.keeps (by omega) l.name s.heap.length
  obtain ⟨h₂, hrun₂, hk₂⟩ := keeps_put halloc hk₁ (by omega) (le32 l.number) s.heap.length
  have hmap : Function.update (Function.update (fun k => t.spaceHash.find k) l.name
      (some s.heap.length)) (le32 l.number) (some s.heap.length) =
      fun k => (t.addSpace l).spaceHash.find k := by
    funext k
    show _ = ((t.spaceHash.put l.name t.heap.length).put (le32 l.number) t.heap.length).find k
    rw [Assoc.find_put, Assoc.find_put, hlen]
    simp only [Function.update_apply, @eq_comm _ k]
  refine ⟨⟨s.heap ++ [some ⟨l, .empty⟩], h₂⟩, ?_, ?_, h.wf.addSpace l, hmap ▸ hk₂⟩
  · simp only [TntSchemaMh.addSpace, hrun₁, hrun₂]
  · show s.heap ++ _ = (t.heap ++ _).map some
    rw [h.heap, List.map_append]
    rfl

/-- What a key finds. -/
theorem Sim.spaceAt (h : Sim hash puts s t) (k : Bytes) :
    spaceAt hash s k =
      some ((t.spaceHash.find k).bind fun a => t.heap[a]?.map fun space => (a, space)) := by
  obtain ⟨x, hfind, ⟨hx, nd, hnd, rfl⟩ | ⟨rfl, hnone⟩⟩ := h.keeps.table.find h.keeps.notFull k
  · have hentry : t.spaceHash.find nd.key = some nd.data := h.keeps.table.maps.holds hx hnd
    have hlt : nd.data < t.heap.length := h.wf _ _ hentry
    have hrec : s.heap[nd.data]? = some (some t.heap[nd.data]) := by
      rw [h.heap, List.getElem?_map, List.getElem?_eq_getElem hlt]
      rfl
    simp only [Slots.spaceAt, hfind, if_neg (Nat.ne_of_lt hx), hnd, hrec, hentry, Option.bind_some,
      List.getElem?_eq_getElem hlt, Option.map_some]
  · have hno : t.spaceHash.find k = none := hnone
    simp only [Slots.spaceAt, hfind, if_true, hno, Option.bind_none]

/-- An index of a record. -/
theorem Sim.addIndex (h : Sim hash puts s t) (a : Nat) (l : Label) :
    Sim hash puts (s.addIndex a l) (t.addIndex a l) := by
  refine ⟨?_, fun k b hk => ?_, h.keeps⟩
  · show s.heap.modify a _ = (t.heap.modify a _).map some
    rw [h.heap]
    refine List.ext_getElem? fun i => ?_
    simp only [List.getElem?_modify, List.getElem?_map]
    by_cases hi : a = i
    · simp only [hi, if_true]
      cases t.heap[i]? <;> rfl
    · simp only [hi, if_false]
      cases t.heap[i]? <;> rfl
  · show b < (t.heap.modify a _).length
    rw [List.length_modify]
    exact h.wf k b hk

/-- **Both look-ups answer the same.**  Both come down to `mh_find`, which is a look-up in the map.
-/
theorem Sim.stosid (h : Sim hash puts s t) (name : Bytes) :
    tntSchemaStosidMh hash s name = some (tntSchemaStosid t name) := by
  rw [tntSchemaStosidMh, h.spaceAt, tntSchemaStosid, TntSchema.space]
  cases hfind : t.spaceHash.find name with
  | none => rfl
  | some a =>
    obtain ⟨space, hspace⟩ : ∃ space, t.heap[a]? = some space :=
      ⟨_, List.getElem?_eq_getElem (h.wf _ _ hfind)⟩
    simp only [Option.bind_some, hspace, Option.map_some]

/-- The look-up of an index goes through that of its space. -/
theorem Sim.stoiid (h : Sim hash puts s t) (sid : UInt32) (name : Bytes) :
    tntSchemaStoiidMh hash s sid name = some (tntSchemaStoiid t sid name) := by
  rw [tntSchemaStoiidMh, h.spaceAt, tntSchemaStoiid, TntSchema.space]
  cases hfind : t.spaceHash.find (le32 sid.toNat) with
  | none => rfl
  | some a =>
    obtain ⟨space, hspace⟩ : ∃ space, t.heap[a]? = some space :=
      ⟨_, List.getElem?_eq_getElem (h.wf _ _ hfind)⟩
    simp only [Option.bind_some, hspace, Option.map_some]
    cases space.index.find name <;> rfl

end Sim

/-! ## §2 — rows. -/

/-- Both are undefined, or both give one result, one position and schemas that go together. -/
inductive Same {ρ σ τ : Type} (R : σ → τ → Prop) : Option (Int × σ × ρ) → Option (Int × τ × ρ) → Prop
  | undef : Same R none none
  | done (rc : Int) (p : ρ) {s : σ} {t : τ} (h : R s t) : Same R (some (rc, s, p)) (some (rc, t, p))

section Rows

variable [Msgpuck] {hash : Bytes → Nat} {alloc : Nat → Bool} {puts : Nat} {s : TntSchemaMh}
  {t : TntSchema}

/-- The end of a row. -/
theorem finish_same {R : TntSchemaMh → TntSchema → Prop} (h : R s t) (buf : Bytes) (p : Nat)
    (rc : Int) : Same R (finish buf p rc s) (finish buf p rc t) := by
  rw [finish, finish]
  cases nextAt buf p with
  | ok q => exact .done rc q h
  | undef => exact .undef
  | fail => exact .undef

omit [Msgpuck] in
/-- More puts may be allowed for. -/
theorem Sim.more (h : Sim hash puts s t) {puts' : Nat} (hle : puts ≤ puts') : Sim hash puts' s t :=
  ⟨h.heap, h.wf, h.keeps.more hle⟩

/-- **A row of spaces.**  Whatever bytes the row is made of: they are read by the same function in
both. -/
theorem Sim.spaceRow (h : Sim hash puts s t) (halloc : Plentiful alloc)
    (hputs : puts + 2 ≤ 2 ^ 29) (buf : Bytes) (p : Nat) :
    Same (Sim hash (puts + 2)) (tntSchemaAddSpaceMh hash alloc s buf p)
      (tntSchemaAddSpace alloc t buf p) := by
  have hmore : Sim hash (puts + 2) s t := h.more (Nat.le_add_right _ _)
  rw [tntSchemaAddSpaceMh, tntSchemaAddSpace]
  cases spaceFields alloc buf p with
  | undef => exact .undef
  | fail => exact finish_same hmore buf p (-1)
  | ok l =>
    obtain ⟨s', hadd, hsim⟩ := h.addSpace halloc hputs l
    simp only [hadd]
    exact finish_same hsim buf p 0

/-- **A row of indexes.** -/
theorem Sim.indexRow (h : Sim hash puts s t) (buf : Bytes) (p : Nat) :
    Same (Sim hash puts) (tntSchemaAddIndexMh hash alloc s buf p)
      (tntSchemaAddIndex alloc t buf p) := by
  rw [tntSchemaAddIndexMh, tntSchemaAddIndex]
  cases indexSpace buf p with
  | undef => exact .undef
  | fail => exact finish_same h buf p (-1)
  | ok r =>
    obtain ⟨sid, tuple⟩ := r
    simp only [h.spaceAt]
    cases hfind : t.spaceHash.find (le32 sid) with
    | none => exact .done (-1) p h
    | some a =>
      obtain ⟨space, hrec⟩ : ∃ space, t.heap[a]? = some space :=
        ⟨_, List.getElem?_eq_getElem (h.wf _ _ hfind)⟩
      simp only [Option.bind_some, hrec, Option.map_some]
      cases indexFields alloc buf tuple with
      | undef => exact .undef
      | fail => exact finish_same h buf p (-1)
      | ok l => exact finish_same (h.addIndex a l) buf p 0

omit [Msgpuck] in
/-- The loop over rows, each of which takes `c` puts. -/
theorem addLoop_same {c : Nat}
    {add : TntSchemaMh → Bytes → Nat → Option (Int × TntSchemaMh × Nat)}
    {add' : TntSchema → Bytes → Nat → Option (Int × TntSchema × Nat)}
    (hadd : ∀ {puts : Nat} {s : TntSchemaMh} {t : TntSchema}, Sim hash puts s t →
      puts + c ≤ 2 ^ 29 → ∀ buf p, Same (Sim hash (puts + c)) (add s buf p) (add' t buf p))
    (h : Sim hash puts s t) (buf : Bytes) (n p : Nat) (hputs : puts + c * n ≤ 2 ^ 29) :
    (addLoop add buf n p s = none ∧ addLoop add' buf n p t = none) ∨
      ∃ rc s' t', addLoop add buf n p s = some (rc, s') ∧
        addLoop add' buf n p t = some (rc, t') ∧ Sim hash (puts + c * n) s' t' := by
  induction n generalizing p s t puts with
  | zero => exact .inr ⟨0, s, t, rfl, rfl, by rwa [Nat.mul_zero, Nat.add_zero]⟩
  | succ n ih =>
    rw [Nat.mul_succ] at hputs
    rw [addLoop, addLoop]
    have hone := hadd h (by omega) buf p
    -- the row comes to the same in both: undefined, refused, or added
    cases hs : add s buf p with
    | none =>
      rw [hs] at hone
      cases ht : add' t buf p with
      | none => exact .inl ⟨rfl, rfl⟩
      | some r =>
        rw [ht] at hone
        cases hone
    | some r =>
      rw [hs] at hone
      cases ht : add' t buf p with
      | none =>
        rw [ht] at hone
        cases hone
      | some r' =>
        rw [ht] at hone
        cases hone with
        | @done rc q s₁ t₁ hsim =>
          -- a row that is refused ends both loops
          by_cases hrc : rc ≠ 0
          · refine .inr ⟨-1, s₁, t₁, if_pos hrc, if_pos hrc, hsim.more ?_⟩
            rw [Nat.mul_succ]
            omega
          · rcases ih hsim q (by omega) with ⟨hno, hno'⟩ | ⟨rc', s', t', hgo, hgo', hsim'⟩
            · refine .inl ⟨?_, ?_⟩
              · simp only [if_neg hrc, hno]
              · simp only [if_neg hrc, hno']
            · refine .inr ⟨rc', s', t', ?_, ?_, hsim'.more ?_⟩
              · simp only [if_neg hrc, hgo]
              · simp only [if_neg hrc, hgo']
              · rw [Nat.mul_succ]
                omega

/-- How many rows a reply has, if its data begins with a value. -/
def rowsOf (data : Bytes) : Nat :=
  match mpCheck data, (do expectType data 0 .array; decodeArrayAt data 0 : Outcome (Nat × Nat)) with
  | some _, .ok (n, _) => n
  | _, _ => 0

/-- The data of a reply. -/
theorem addRows_same {c : Nat}
    {add : TntSchemaMh → Bytes → Nat → Option (Int × TntSchemaMh × Nat)}
    {add' : TntSchema → Bytes → Nat → Option (Int × TntSchema × Nat)}
    (hadd : ∀ {puts : Nat} {s : TntSchemaMh} {t : TntSchema}, Sim hash puts s t →
      puts + c ≤ 2 ^ 29 → ∀ buf p, Same (Sim hash (puts + c)) (add s buf p) (add' t buf p))
    (h : Sim hash puts s t) (data : Bytes) (hputs : puts + c * rowsOf data ≤ 2 ^ 29) :
    (addRows add s data = none ∧ addRows add' t data = none) ∨
      ∃ rc s' t', addRows add s data = some (rc, s') ∧ addRows add' t data = some (rc, t') ∧
        Sim hash (puts + c * rowsOf data) s' t' := by
  rw [addRows, addRows]
  rw [rowsOf] at hputs ⊢
  have hstay : ∀ k, Sim hash (puts + k) s t := fun k => h.more (Nat.le_add_right _ _)
  cases hcheck : mpCheck data with
  | none => exact .inr ⟨-1, s, t, rfl, rfl, hstay _⟩
  | some len =>
    rw [hcheck] at hputs
    cases hdec : (do expectType data 0 .array; decodeArrayAt data 0 : Outcome (Nat × Nat)) with
    | undef => exact .inl ⟨rfl, rfl⟩
    | fail => exact .inr ⟨-1, s, t, rfl, rfl, hstay _⟩
    | ok r =>
      obtain ⟨n, p⟩ := r
      rw [hdec] at hputs
      exact addLoop_same hadd h data n p hputs

/-! ## §3 — any sequence of loads. -/

/-- A reply that is loaded. -/
inductive Load where
  | spaces (data : Bytes)
  | indexes (data : Bytes)

def Load.rows : Load → Nat
  | .spaces data => rowsOf data
  | .indexes _ => 0

/-- Over the slots. -/
def Load.run (hash : Bytes → Nat) (alloc : Nat → Bool) (s : TntSchemaMh) :
    Load → Option (Int × TntSchemaMh)
  | .spaces data => tntSchemaAddSpacesMh hash alloc s data
  | .indexes data => tntSchemaAddIndexesMh hash alloc s data

/-- Over the tables. -/
def Load.runTables (alloc : Nat → Bool) (t : TntSchema) : Load → Option (Int × TntSchema)
  | .spaces data => tntSchemaAddSpaces alloc t data
  | .indexes data => tntSchemaAddIndexes alloc t data

/-- One load after the other, with all results. -/
def runLoads {σ : Type} (run : σ → Load → Option (Int × σ)) : σ → List Load → Option (List Int × σ)
  | s, [] => some ([], s)
  | s, l :: ls => do
    let (rc, s) ← run s l
    let (rcs, s) ← runLoads run s ls
    return (rc :: rcs, s)

/-- One load, ... -/
theorem Sim.load (h : Sim hash puts s t) (halloc : Plentiful alloc) (l : Load)
    (hputs : puts + 2 * l.rows ≤ 2 ^ 29) :
    (l.run hash alloc s = none ∧ l.runTables alloc t = none) ∨
      ∃ rc s' t', l.run hash alloc s = some (rc, s') ∧ l.runTables alloc t = some (rc, t') ∧
        Sim hash (puts + 2 * l.rows) s' t' := by
  cases l with
  | spaces data => exact addRows_same (fun h hputs buf p => h.spaceRow halloc hputs buf p) h data hputs
  | indexes data =>
    have hrows := @addRows_same _ hash puts s t 0 (tntSchemaAddIndexMh hash alloc)
      (tntSchemaAddIndex alloc) (fun h _ buf p => h.indexRow buf p) h data (by rwa [Nat.zero_mul])
    rwa [Nat.zero_mul] at hrows

/-- ... and any number of them. -/
theorem Sim.loads (h : Sim hash puts s t) (halloc : Plentiful alloc) (ls : List Load)
    (hputs : puts + 2 * (ls.map Load.rows).sum ≤ 2 ^ 29) :
    (runLoads (Load.run hash alloc) s ls = none ∧ runLoads (Load.runTables alloc) t ls = none) ∨
      ∃ rcs s' t', runLoads (Load.run hash alloc) s ls = some (rcs, s') ∧
        runLoads (Load.runTables alloc) t ls = some (rcs, t') ∧
        Sim hash (puts + 2 * (ls.map Load.rows).sum) s' t' := by
  induction ls generalizing s t puts with
  | nil => exact .inr ⟨[], s, t, rfl, rfl, h⟩
  | cons l ls ih =>
    rw [List.map_cons, List.sum_cons] at hputs ⊢
    rcases h.load halloc l (by omega) with ⟨hno, hno'⟩ | ⟨rc, s₁, t₁, hone, hone', hsim⟩
    · refine .inl ⟨?_, ?_⟩
      · simp only [runLoads, hno, bind, Option.bind_none]
      · simp only [runLoads, hno', bind, Option.bind_none]
    · rcases ih hsim (by omega) with ⟨hno, hno'⟩ | ⟨rcs, s', t', hgo, hgo', hsim'⟩
      · refine .inl ⟨?_, ?_⟩
        · simp only [runLoads, hone, hno, bind, Option.bind_some, Option.bind_none]
        · simp only [runLoads, hone', hno', bind, Option.bind_some, Option.bind_none]
      · refine .inr ⟨rc :: rcs, s', t', ?_, ?_, ?_⟩
        · simp only [runLoads, hone, hgo, bind, Option.bind_some, pure]
        · simp only [runLoads, hone', hgo', bind, Option.bind_some, pure]
        · rwa [Nat.mul_add, ← Nat.add_assoc]

/-- **The slots refine the tables.**  For every hash function, every allocator that has memory (with
or without a block of size 0) and every sequence of replies, well formed or not, with at most `2 ^
28` rows of spaces: the loads over the slots are undefined exactly if those over the tables are;
otherwise all results are the same, and in the end both look-ups give the same answers, for every
name and number.  In particular both stop at the same row, if one is refused.  It is a simulation,
row by row; the only thing to prove about the hash at each row is that it still is the map of the
table, which `TarantoolC.Mhash.Map` has for two calls of `mh_put`. -/
theorem slots_refine (hash : Bytes → Nat) (halloc : Plentiful alloc) (ls : List Load)
    (hrows : (ls.map Load.rows).sum ≤ 2 ^ 28) :
    (runLoads (Load.run hash alloc) tntSchemaNewMh ls = none ↔
      runLoads (Load.runTables alloc) tntSchemaNew ls = none) ∧
    ∀ rcs t, runLoads (Load.runTables alloc) tntSchemaNew ls = some (rcs, t) →
      ∃ s, runLoads (Load.run hash alloc) tntSchemaNewMh ls = some (rcs, s) ∧
        (∀ name, tntSchemaStosidMh hash s name = some (tntSchemaStosid t name)) ∧
        ∀ sid name, tntSchemaStoiidMh hash s sid name =
          some (tntSchemaStoiid t sid name) := by
  have hnew : Sim hash 0 tntSchemaNewMh tntSchemaNew := sim_new
  rcases hnew.loads halloc ls (by omega) with
    ⟨hno, hno'⟩ | ⟨rcs, s, t, hrun, hrun', hsim⟩
  · exact ⟨⟨fun _ => hno', fun _ => hno⟩, fun rcs t ht => by rw [hno'] at ht; cases ht⟩
  · rw [hrun, hrun']
    refine ⟨iff_of_false nofun nofun, fun rcs' t' ht => ?_⟩
    rw [Option.some.injEq, Prod.mk.injEq] at ht
    obtain ⟨rfl, rfl⟩ := ht
    exact ⟨s, rfl, hsim.stosid, hsim.stoiid⟩

end Rows

/-- A space and an index of it; with the hash function and the allocator of the code. -/
def testLoads : List Load :=
  [.spaces (encode (.array [testSpace.value])), .indexes (encode (.array [testIndex.value]))]

/-- With the hash and the allocator of the code, a space that is loaded is found. -/
theorem slots_refine_test :
    ∃ s, @runLoads TntSchemaMh (@Load.run Msgpuck.reference mhHash customRealloc) tntSchemaNewMh
        testLoads = some ([0, 0], s) ∧
      tntSchemaStosidMh mhHash s test = some 512 := by
  let _ := Msgpuck.reference
  have hspaces : tntSchemaAddSpaces customRealloc tntSchemaNew (encode (.array [testSpace.value])) =
      some (0, addSpaces tntSchemaNew (spaceTable customRealloc [testSpace])) :=
    tntSchemaAddSpaces_spec customRealloc tntSchemaNew testSpace_encodes
  have hindexes : tntSchemaAddIndexes customRealloc _ (encode (.array [testIndex.value])) = _ :=
    tntSchemaAddIndexes_spec customRealloc
      (addSpaces tntSchemaNew (spaceTable customRealloc [testSpace])) testIndex_encodes
  rw [takeWhile_enters] at hindexes
  have hrun : runLoads (Load.runTables customRealloc) tntSchemaNew testLoads =
      some ([0, 0], loaded customRealloc tntSchemaNew [testSpace] [testIndex]) := by
    simp only [testLoads, runLoads, Load.runTables, hspaces, hindexes, bind, Option.bind_some, pure]
    rfl
  obtain ⟨s, hs, hsid, -⟩ :=
    (slots_refine mhHash customRealloc_plentiful testLoads (by decide +kernel)).2 _ _ hrun
  refine ⟨s, hs, (hsid test).trans ?_⟩
  decide

end TarantoolC.Schema.Slots
