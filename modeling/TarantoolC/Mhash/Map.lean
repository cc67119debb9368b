/-
# TarantoolC.Mhash.Map — the hash is a MAP, whatever is put and removed.

`TarantoolC.Mhash` follows a hash that nodes are only put into.  Here nodes are removed as well, also
while a resize is pending: a removed node leaves a dirty slot behind, the shadow array loses the node
if it has it, and the next batch is moved.

`Mh.Keeps` is the invariant.  The array is the map.  The shadow is a part of it, with all that stands
below `resize_position`.  `n_dirty` is no less than the slots that have a node or are dirty, and every
`put` and every `del` of a resize moves at least 256 slots, so that neither array is ever full.

`mh_is_map`: from `mh_new` on, in every sequence of at most `2 ^ 29` calls of `mh_put` and any number
of others, every call ends, and `mh_find` answers as the map does.

## §1 and §2, calls and what is promised.

A `Call` is `mh_put` with a node (and the memory there is at the time), `mh_remove` of a key, or
`mh_find` of a key.  `Call.Does` is the promise in terms of maps from keys to optional data: a put
sets the entry of its key, unless it was refused memory, and then nothing; a removal takes the entry
away; a look-up says what the map says.  It is the abstract side, and says nothing of slots.

## §3, one array.

`MhTable.Fine` has what the array promises as long as `n_dirty` is less than its length: it is
searched correctly (`Sound`), its nodes are the map (`Maps`), and no slot that has a node or a mark
is left out of `n_dirty`.  The last is an inequality on purpose.  A removal leaves `n_dirty` as it
is, and the source counts a node that goes back into a dirty slot in one place and not in the other.

## §4, the hash.

`Mh.Keeps hash m puts room h` carries four numbers that the resize depends on.  `room` is 1 between
the moment in which `mh_put` has made room and that in which the node is stored.  `puts` bounds both
`n_dirty` and the nodes: after `2 ^ 29` puts no array is so long that `mh_int_t` wraps around.  The
bound with `resize_position / 256` says why a pending resize is always done in time: each call moves
256 slots at least, so by the time the array could be full all of it has been moved.  And `Ordered`
says that the primes below the present length are passed for good, so that the loop over the primes
finds a longer one.

* `moveFrom_runs` — a batch: `Part.moveOne` is one slot of it;
* `Mh.Pending.resize`, `Mh.Keeps.startResize` — the two ways of making room;
* `Mh.Pending.stores`, `Mh.Keeps.stores` — a node in both arrays, or in the one;
* `Mh.Keeps.put`, `Mh.Keeps.del` — the two calls that change something.

## §5, whole runs.

`Mh.Keeps.call` is the step and `Mh.Keeps.calls` the run.  `mh_is_map` adds what a caller sees at
the end: `size` is the number of entries, and `mh_foreach` comes to each of them once.
-/
import Mathlib
import TarantoolC.Mhash
import TarantoolC.Probing.Entries

namespace TarantoolC.Mhash

open Probing

/-! ## §1 — the calls. -/

section Code

variable {κ β : Type} [DecidableEq κ] (hash : κ → Nat)

/-- `mh_remove`. -/
def mhRemove (h : Mh κ β) (k : κ) : Option (Mh κ β) := do
  let x ← mhFind hash h.table k
  if x ≠ h.table.nBuckets then mhDel hash h x else some h

/-- `mh_find`, and the data of `mh_node` where it is not `mh_end`. -/
def mhLookup (h : Mh κ β) (k : κ) : Option (Option β) := do
  let x ← mhFind hash h.table k
  if x = h.table.nBuckets then some none else some ((h.table.slots x).node.map Node.data)

/-- A call, and for `mh_put` what memory there is at the time. -/
inductive Call (κ β : Type) where
  | put (alloc : Nat → Bool) (nd : Node κ β)
  | remove (k : κ)
  | find (k : κ)

/-- The hash after a call, and what `mh_find` said. -/
def Call.run (h : Mh κ β) : Call κ β → Option (Mh κ β × Option β)
  | .put alloc nd => (mhPut hash alloc h nd).map fun h => (h, none)
  | .remove k => (mhRemove hash h k).map fun h => (h, none)
  | .find k => (mhLookup hash h k).map fun v => (h, v)

/-- Calls one after the other, and all that `mh_find` said. -/
def runCalls : Mh κ β → List (Call κ β) → Option (Mh κ β × List (Option β))
  | h, [] => some (h, [])
  | h, c :: cs => do
    let (h, answer) ← c.run hash h
    let (h, answers) ← runCalls h cs
    return (h, answer :: answers)

end Code

/-! ## §2 — what is promised. -/

section Promise

variable {κ β : Type} [DecidableEq κ]

/-- What a call does to a map, and what it says.  `mh_put` may leave the map as it is, but only
where a block was refused that is not of size 0. -/
inductive Call.Does (m : κ → Option β) : Call κ β → Option β → (κ → Option β) → Prop
  | put (alloc : Nat → Bool) (nd : Node κ β) :
      Does m (.put alloc nd) none (Function.update m nd.key (some nd.data))
  | refused {alloc : Nat → Bool} (nd : Node κ β) {n : Nat} (hpos : 0 < n) (h : alloc n = false) :
      Does m (.put alloc nd) none m
  | remove (k : κ) : Does m (.remove k) none (Function.update m k none)
  | find (k : κ) : Does m (.find k) (m k) m

/-- The same for calls one after the other. -/
inductive Follows : (κ → Option β) → List (Call κ β) → List (Option β) → (κ → Option β) → Prop
  | nil (m : κ → Option β) : Follows m [] [] m
  | cons {m m₁ m' : κ → Option β} {c : Call κ β} {a : Option β} {cs : List (Call κ β)}
      {as : List (Option β)} (h : c.Does m a m₁) (hs : Follows m₁ cs as m') :
      Follows m (c :: cs) (a :: as) m'

def Call.isPut : Call κ β → Bool
  | .put _ _ => true
  | _ => false

end Promise

/-! ## §3 — one array, also where nodes were removed. -/

section Spec

variable {κ β : Type} [DecidableEq κ] {hash : κ → Nat}

section Slot

variable {n : Nat} {S : Slots κ β} {k : κ}

/-- What `put_slot` leaves of the slots: marks, on slots that have nodes. -/
structure Marked (hash : κ → Nat) (n : Nat) (S S' : Slots κ β) : Prop where
  sound : Sound hash n S'
  node : ∀ i, (S' i).node = (S i).node
  touched_eq : touched n S' = touched n S

omit [DecidableEq κ] in
/-- Marks on slots with nodes touch no new slot, so some slot stays open. -/
theorem Marked.hasOpen {S' : Slots κ β} (h : Marked hash n S S') (hroom : touched n S < n) :
    HasOpen n S' :=
  hasOpen_of_touched (h.touched_eq.trans_lt hroom)

/-- The first loop of `put_slot` ends, on the way of the key.  The way visits every slot, since the
size is a prime and the step is not a multiple of it, and one slot on it is untouched: that ends the
loop at the latest.  The slots it passes get their dirty bit. -/
theorem skipFrom_runs (hn : n.Prime) (hbig : n < 2 ^ 31) (hsound : Sound hash n S)
    (hroom : touched n S < n) {fuel j : Nat} (hfuel : n ≤ fuel + j) (hcame : Came hash n S k j) :
    ∃ found x S', skipFrom n k (1 + hash k % (n - 1)) fuel (probe n (hash k) j) S =
        some (found, x, S') ∧ x < n ∧ Marked hash n S S' ∧
      (found = true → Holds S' x k) ∧
      (found = false → (S' x).node = none ∧ ∃ j, probe n (hash k) j = x ∧ Came hash n S' k j) := by
  induction fuel generalizing j S with
  | zero =>
    have := hcame.lt hn (hasOpen_of_touched hroom)
    omega
  | succ fuel ih =>
    have hx := probe_lt hn.pos (hash k) j
    rw [skipFrom]
    cases hnd : (S (probe n (hash k) j)).node with
    | none =>
      exact ⟨false, _, S, rfl, hx, ⟨hsound, fun _ => rfl, rfl⟩, fun h => absurd h (by decide),
        fun _ => ⟨hnd, j, rfl, hcame⟩⟩
    | some nd =>
      by_cases hkey : nd.key = k
      · exact ⟨true, _, S, if_pos hkey, hx, ⟨hsound, fun _ => rfl, rfl⟩, fun _ => ⟨nd, hnd, hkey⟩,
          fun h => absurd h (by decide)⟩
      · -- one slot further, behind a mark
        have htouched := touched_mark (n := n) hx (by rw [hnd]; rfl)
        have hcame' : Came hash n
            (setSlot S (probe n (hash k) j) ⟨(S (probe n (hash k) j)).node, true⟩) k (j + 1) := by
          refine hcame.mark.succ (by rw [setSlot_self]) ?_
          rintro ⟨nd', hnd', hk⟩
          rw [mark_node, hnd, Option.some.injEq] at hnd'
          exact hkey (hnd' ▸ hk)
        obtain ⟨found, x, S', hrun, hlt, hmarked, hfound, hfree⟩ :=
          ih hsound.mark (by rw [htouched]; exact hroom) (by omega) hcame'
        refine ⟨found, x, S', ?_, hlt, ⟨hmarked.sound, fun i => (hmarked.node i).trans
          (mark_node S _ i), hmarked.touched_eq.trans htouched⟩, hfound, hfree⟩
        show (if nd.key = k then _ else _) = _
        rw [if_neg hkey, mhNextSlot_probe hn.one_lt hbig, ← hnd]
        exact hrun

/-- The second loop ends, with the slot of the key or where no slot has it.  It looks for the key
behind the free slot that the first loop has found, since a key may stand behind a slot that was
freed after it came.  If it is nowhere the free slot is taken. -/
theorem duplicateFrom_runs (hn : n.Prime) (hbig : n < 2 ^ 31) (hsound : Sound hash n S)
    (hopen : HasOpen n S) (saveI : Nat) {fuel j : Nat} (hfuel : n ≤ fuel + j)
    (hcame : Came hash n S k j) (hno : ¬ Holds S (probe n (hash k) j) k) :
    ∃ y, duplicateFrom n S k (1 + hash k % (n - 1)) saveI fuel (probe n (hash k) j) = some y ∧
      ((y < n ∧ Holds S y k) ∨ (y = saveI ∧ ∀ i < n, ¬ Holds S i k)) := by
  induction fuel generalizing j with
  | zero =>
    have := hcame.lt hn hopen
    omega
  | succ fuel ih =>
    rw [duplicateFrom]
    by_cases hdirty : (S (probe n (hash k) j)).dirty = true
    · rw [if_pos hdirty, mhNextSlot_probe hn.one_lt hbig]
      dsimp only
      by_cases hhas : slotHas (S (probe n (hash k) (j + 1))) k = true
      · rw [if_pos hhas]
        exact ⟨_, rfl, .inl ⟨probe_lt hn.pos _ _, slotHas_iff.mp hhas⟩⟩
      · rw [if_neg hhas]
        exact ih (by omega) (hcame.succ hdirty hno) fun h => hhas (slotHas_iff.mpr h)
    · rw [if_neg hdirty]
      have hclean : (S (probe n (hash k) j)).dirty = false := by simpa using hdirty
      exact ⟨saveI, rfl, .inr ⟨rfl, fun i hi => hsound.absent hcame hno hclean hi⟩⟩

/-- **`put_slot` ends**: at the slot of the key, or at a free one on its way.  The slots on the way
are marked dirty, which no search minds. -/
theorem mhPutSlot_runs (hn : n.Prime) (hbig : n < 2 ^ 31) (hsound : Sound hash n S)
    (hroom : touched n S < n) (k : κ) :
    ∃ x S', mhPutSlot hash n S k = some (x, S') ∧ x < n ∧ Marked hash n S S' ∧
      (Holds S' x k ∨ ((S' x).node = none ∧ (∃ j, probe n (hash k) j = x ∧ Came hash n S' k j) ∧
        ∀ i < n, ¬ Holds S' i k)) := by
  have hhome := probe_zero n (hash k)
  obtain ⟨found, x, S', hskip, hx, hmarked, hfound, hfree⟩ :=
    skipFrom_runs hn hbig hsound hroom (Nat.le_refl _) (came_zero (k := k))
  rw [hhome] at hskip
  -- either the key was met on the way, or the walk stopped at the first free slot
  cases found with
  | true =>
    refine ⟨x, S', ?_, hx, hmarked, .inl (hfound rfl)⟩
    simp only [mhPutSlot, hskip]
  | false =>
    obtain ⟨hnone, j, rfl, hcame⟩ := hfree rfl
    have hopen := hmarked.hasOpen hroom
    -- the free slot holds no key at all, so the second walk may start behind it
    have hno : ¬ Holds S' (probe n (hash k) j) k := by
      rintro ⟨nd, hnd, -⟩
      rw [hnone] at hnd
      cases hnd
    have hfuel : n ≤ n + j := Nat.le_add_right n j
    obtain ⟨y, hdup, hy⟩ :=
      duplicateFrom_runs hn hbig hmarked.sound hopen (probe n (hash k) j) hfuel hcame hno
    refine ⟨y, S', ?_, ?_⟩
    · simp only [mhPutSlot, hskip, hdup, Option.map_some]
    · rcases hy with ⟨hlt, hholds⟩ | ⟨rfl, hnone'⟩
      · exact ⟨hlt, hmarked, .inl hholds⟩
      · exact ⟨hx, hmarked, .inr ⟨hnone, ⟨j, rfl, hcame⟩, hnone'⟩⟩

end Slot

/-- An array that is a map and is searched correctly, as long as `n_dirty` is less than its length.
-/
structure MhTable.Fine (hash : κ → Nat) (m : κ → Option β) (t : MhTable κ β) : Prop where
  buckets : t.nBuckets ∈ acPrimeList
  small : t.nBuckets < 2 ^ 31
  sound : Sound hash t.nBuckets t.slots
  maps : Maps t.nBuckets t.slots m
  touched_le : touched t.nBuckets t.slots ≤ t.nDirty

section Arrays

variable {m : κ → Option β} {t t' : MhTable κ β} {nd : Node κ β}

omit [DecidableEq κ] in
/-- The length of an array is a prime. -/
theorem MhTable.Fine.prime (h : t.Fine hash m) : t.nBuckets.Prime := acPrimeList_prime h.buckets

omit [DecidableEq κ] in
/-- An array without nodes is the empty map. -/
theorem fine_noSlots {n : Nat} (hn : n ∈ acPrimeList) (hsmall : n < 2 ^ 31) (size prime : Nat) :
    (⟨n, noSlots, 0, size, prime⟩ : MhTable κ β).Fine hash fun _ => none :=
  ⟨hn, hsmall, sound_noSlots, maps_noSlots, Nat.le_of_eq touched_noSlots⟩

/-- **`mh_find`** ends, and answers as the map does.  An entry that is there stands behind dirty
slots only; the search ends as not all slots are dirty. -/
theorem MhTable.Fine.find (h : t.Fine hash m) (hroom : t.nDirty < t.nBuckets) (k : κ) :
    ∃ x, mhFind hash t k = some x ∧
      ((x < t.nBuckets ∧ ∃ nd, (t.slots x).node = some nd ∧ nd.key = k) ∨
        (x = t.nBuckets ∧ m k = none)) := by
  have hopen := hasOpen_of_touched (Nat.lt_of_le_of_lt h.touched_le hroom)
  obtain ⟨x, hrun, hx⟩ := mhFind_spec h.prime h.small h.sound hopen k
  exact ⟨x, hrun, hx.imp_right fun ⟨he, hno⟩ => ⟨he, h.maps.absent hno⟩⟩

/-- One slot of an array has another node. -/
def Changed (t t' : MhTable κ β) (x : Nat) (nd : Option (Node κ β)) : Prop :=
  x < t.nBuckets ∧ t'.nBuckets = t.nBuckets ∧
    ∀ i, (t'.slots i).node = if i = x then nd else (t.slots i).node

omit [DecidableEq κ] in
/-- Numbers of nodes, after a change.  At most one slot differs, so all counts differ by what that
slot adds and takes away. -/
theorem Changed.count {x : Nat} {nd : Option (Node κ β)} (h : Changed t t' x nd) (p : Nat → Bool) :
    count (fun i s => p i && s.node.isSome) t.nBuckets t'.slots +
        (if p x && (t.slots x).node.isSome then 1 else 0) =
      count (fun i s => p i && s.node.isSome) t.nBuckets t.slots +
        if p x && nd.isSome then 1 else 0 := by
  obtain ⟨hx, -, hnode⟩ := h
  have hsame : Probing.count (fun i s => p i && s.node.isSome) t.nBuckets t'.slots =
      Probing.count (fun i s => p i && s.node.isSome) t.nBuckets
        (setSlot t.slots x ⟨nd, false⟩) := by
    refine count_congr fun i _ => ?_
    rw [hnode, setSlot_apply]
    split_ifs <;> rfl
  rw [hsame]
  exact count_setSlot (fun i s => p i && s.node.isSome) ⟨nd, false⟩ hx

omit [DecidableEq κ] in
/-- A change of one slot changes the number of nodes by one at most, ... -/
theorem Changed.used {x : Nat} {nd : Option (Node κ β)} (h : Changed t t' x nd) :
    used t.nBuckets t'.slots + (if (t.slots x).node.isSome then 1 else 0) =
      used t.nBuckets t.slots + if nd.isSome then 1 else 0 := by
  simpa only [used_eq_count, Bool.true_and] using h.count fun _ => true

omit [DecidableEq κ] in
/-- ... and so what remains of them behind a position. -/
theorem Changed.remaining {x pos : Nat} {nd : Option (Node κ β)} (h : Changed t t' x nd) :
    remaining pos t.nBuckets t'.slots ≤
      remaining pos t.nBuckets t.slots + if nd.isSome then 1 else 0 := by
  have hcount := h.count fun i => decide (pos ≤ i)
  rw [Probing.remaining, Probing.remaining]
  have hle : (if decide (pos ≤ x) && nd.isSome then 1 else 0) ≤ if nd.isSome then 1 else 0 := by
    cases decide (pos ≤ x) <;> cases nd.isSome <;> decide
  omega

/-- The slot that `mh_put_slot` finds for a node, with the node in it.  The map gets the entry, and
the slots that are touched are one more, or none if the slot was dirty or had the key before. -/
theorem MhTable.Fine.fill (h : t.Fine hash m) (hroom : t.nDirty < t.nBuckets) (nd : Node κ β) :
    ∃ x S, mhPutSlot hash t.nBuckets t.slots nd.key = some (x, S) ∧ x < t.nBuckets ∧
      (∀ i, (S i).node = (t.slots i).node) ∧
      Sound hash t.nBuckets (setSlot S x ⟨some nd, (S x).dirty⟩) ∧
      Maps t.nBuckets (setSlot S x ⟨some nd, (S x).dirty⟩)
        (Function.update m nd.key (some nd.data)) ∧
      touched t.nBuckets (setSlot S x ⟨some nd, (S x).dirty⟩) +
        (if (S x).node.isSome || (S x).dirty then 1 else 0) = touched t.nBuckets t.slots + 1 := by
  obtain ⟨x, S, hrun, hx, hmarked, hwhere⟩ := mhPutSlot_runs h.prime h.small h.sound
    (Nat.lt_of_le_of_lt h.touched_le hroom) nd.key
  have hmaps : Maps t.nBuckets S m := h.maps.of_node fun i _ => hmarked.node i
  have hsound := hmarked.sound.fill hx
    (hwhere.imp_right fun hfree => ⟨hfree.2.1, hfree.2.2⟩)
  have hfill := hmaps.fill (d := (S x).dirty) hmarked.sound.distinct hx
    (hwhere.imp_right fun hfree => ⟨hfree.1, hfree.2.2⟩)
  have htouched := touched_setSlot (S := S) ⟨some nd, (S x).dirty⟩ hx
  rw [hmarked.touched_eq] at htouched
  exact ⟨x, S, hrun, hx, hmarked.node, hsound, hfill, htouched⟩

/-- What the end of `mh_put` makes of an array: the entry is set, and `size` counts the nodes.
`size` is compared with the number of nodes and not set to it, since the two are not the same in an
array that is being filled by a resize. -/
structure Stores (hash : κ → Nat) (m : κ → Option β) (t t' : MhTable κ β) (x : Nat)
    (nd : Node κ β) : Prop where
  fine : t'.Fine hash (Function.update m nd.key (some nd.data))
  changed : Changed t t' x (some nd)
  prime : t'.prime = t.prime
  dirty : t'.nDirty ≤ t.nDirty + 1
  size : t'.size ≤ t.size + 1
  counted : t'.size + used t.nBuckets t.slots = t.size + used t.nBuckets t'.slots

/-- **The end of `mh_put`**: a node in the place of one with its key, or in a slot that was free.
In both cases the map changes at one key, and the number of nodes by one or not at all. -/
theorem MhTable.Fine.store (h : t.Fine hash m) (hroom : t.nDirty < t.nBuckets) (nd : Node κ β) :
    ∃ t' x, mhStore hash t nd = some t' ∧ Stores hash m t t' x nd := by
  obtain ⟨x, S, hrun, hx, hsame, hsound, hmaps, htouched⟩ := h.fill hroom nd
  have hnode : ∀ i, (setSlot S x ⟨some nd, (S x).dirty⟩ i).node =
      if i = x then some nd else (t.slots i).node := by
    intro i
    rw [setSlot_apply]
    split_ifs
    · rfl
    · exact hsame i
  have hle := h.touched_le
  cases hsome : (S x).node.isSome with
  | true =>
    -- the key is there: its node is replaced, and no number changes
    set t' := { t with slots := setSlot S x ⟨some nd, (S x).dirty⟩ } with ht'
    have hchanged : Changed t t' x (some nd) := ⟨hx, rfl, hnode⟩
    have hused := hchanged.used
    rw [← hsame x, hsome] at hused
    refine ⟨t', x, by rw [mhStore, hrun]; exact if_pos hsome,
      ⟨⟨h.buckets, h.small, hsound, hmaps, ?_⟩, hchanged, rfl, Nat.le_succ _, Nat.le_succ _, ?_⟩⟩
    · simp only [hsome, Bool.true_or, if_true] at htouched
      show touched t.nBuckets (setSlot S x ⟨some nd, (S x).dirty⟩) ≤ t.nDirty
      omega
    · simp only [if_true, Option.isSome_some] at hused
      show t.size + used t.nBuckets t.slots = t.size + used t.nBuckets t'.slots
      omega
  | false =>
    -- the slot was empty: one more node, and one more touched slot unless it was dirty
    set t' := { t with
      slots := setSlot S x ⟨some nd, (S x).dirty⟩
      size := t.size + 1
      nDirty := if (S x).dirty then t.nDirty else t.nDirty + 1 } with ht'
    have hchanged : Changed t t' x (some nd) := ⟨hx, rfl, hnode⟩
    have hused := hchanged.used
    rw [← hsame x, hsome] at hused
    refine ⟨t', x, by rw [mhStore, hrun]; exact if_neg (by simp [hsome]),
      ⟨⟨h.buckets, h.small, hsound, hmaps, ?_⟩, hchanged, rfl, ?_, Nat.le_refl _, ?_⟩⟩
    · simp only [hsome, Bool.false_or] at htouched
      show touched t.nBuckets (setSlot S x ⟨some nd, (S x).dirty⟩) ≤
        if (S x).dirty then t.nDirty else t.nDirty + 1
      split_ifs at htouched ⊢ <;> omega
    · show (if (S x).dirty then t.nDirty else t.nDirty + 1) ≤ t.nDirty + 1
      split_ifs <;> omega
    · simp only [if_true, Option.isSome_some, Bool.false_eq_true, if_false] at hused
      show t.size + 1 + used t.nBuckets t.slots = t.size + used t.nBuckets t'.slots
      omega

/-- A node that is moved into the shadow.  `mh_resize` counts no nodes while it moves them; the
number is set when it is done. -/
theorem MhTable.Fine.move (h : t.Fine hash m) (hroom : t.nDirty < t.nBuckets) (nd : Node κ β) :
    ∃ t', mhMove hash t nd = some t' ∧
      t'.Fine hash (Function.update m nd.key (some nd.data)) ∧ t'.nBuckets = t.nBuckets ∧
      t'.prime = t.prime ∧ t'.nDirty = t.nDirty + 1 ∧ t'.size = t.size := by
  obtain ⟨x, S, hrun, -, -, hsound, hmaps, htouched⟩ := h.fill hroom nd
  have hle := h.touched_le
  refine ⟨{ t with slots := setSlot S x ⟨some nd, (S x).dirty⟩, nDirty := t.nDirty + 1 },
    by simp only [mhMove, hrun], ⟨h.buckets, h.small, hsound, hmaps, ?_⟩, rfl, rfl, rfl, rfl⟩
  show touched t.nBuckets (setSlot S x ⟨some nd, (S x).dirty⟩) ≤ t.nDirty + 1
  omega

/-- **`mh_del`** on an array: the entry goes.  The mark stays, so that keys whose ways lead through
the slot are found as before. -/
theorem MhTable.Fine.del (h : t.Fine hash m) {x : Nat} (hx : x < t.nBuckets)
    (hnd : (t.slots x).node = some nd) :
    (mhTableDel t x).Fine hash (Function.update m nd.key none) ∧
      Changed t (mhTableDel t x) x none ∧ (mhTableDel t x).prime = t.prime ∧
      (mhTableDel t x).nDirty ≤ t.nDirty ∧ (mhTableDel t x).size = t.size - 1 := by
  have hsome : (t.slots x).node.isSome = true := by rw [hnd]; rfl
  have hdel : mhTableDel t x = { t with
      slots := setSlot t.slots x ⟨none, (t.slots x).dirty⟩
      size := t.size - 1
      nDirty := if (t.slots x).dirty then t.nDirty else t.nDirty - 1 } := by
    rw [mhTableDel, if_pos ⟨Nat.ne_of_lt hx, hsome⟩]
  have htouched := touched_setSlot (S := t.slots) ⟨none, (t.slots x).dirty⟩ hx
  have hle := h.touched_le
  simp only [hsome, Bool.true_or, if_true, Option.isSome_none, Bool.false_or] at htouched
  rw [hdel]
  refine ⟨⟨h.buckets, h.small, h.sound.clear, h.maps.clear h.sound.distinct hx hnd, ?_⟩,
    ⟨hx, rfl, fun i => ?_⟩, rfl, ?_, rfl⟩
  · show touched t.nBuckets (setSlot t.slots x ⟨none, (t.slots x).dirty⟩) ≤
      if (t.slots x).dirty then t.nDirty else t.nDirty - 1
    split_ifs at htouched ⊢ <;> omega
  · show (setSlot t.slots x ⟨none, (t.slots x).dirty⟩ i).node = _
    rw [setSlot_apply]
    split_ifs <;> rfl
  · show (if (t.slots x).dirty then t.nDirty else t.nDirty - 1) ≤ t.nDirty
    split_ifs <;> omega

end Arrays

/-! ## §4 — the hash, and its resize. -/

/-- The shadow is a part of the map, and all of it that stands below a position of the array. -/
structure Part (hash : κ → Nat) (m : κ → Option β) (t : MhTable κ β) (pos : Nat)
    (m' : κ → Option β) (s : MhTable κ β) : Prop where
  fine : s.Fine hash m'
  part : ∀ k v, m' k = some v → m k = some v
  below : ∀ i < pos, ∀ nd, (t.slots i).node = some nd → m' nd.key = some nd.data

/-- The first primes of the list are passed for good. -/
def MhTable.Ordered (t : MhTable κ β) : Prop := ∀ q ∈ acPrimeList.take t.prime, q ≤ t.nBuckets

/-- A resize under way: `puts` nodes have been put, and there is `room` for nodes to come.  The
position is the slot the resize goes on from.  What stands below it is in the shadow, and what
stands behind it may be, if it was put since the resize began. -/
structure Mh.Pending (hash : κ → Nat) (m : κ → Option β) (puts room : Nat) (h : Mh κ β) : Prop where
  part : ∃ m', Part hash m h.table h.resizePosition m' h.shadow
  grows : h.table.nBuckets < h.shadow.nBuckets
  dirty : h.shadow.nDirty + room ≤ h.resizePosition + h.resizePosition / 256
  size : h.shadow.size + room ≤ h.table.nBuckets + h.resizePosition / 256
  budget : h.shadow.nDirty + remaining h.resizePosition h.table.nBuckets h.table.slots ≤ 2 * puts
  batch : 256 ≤ h.batch
  ordered : h.shadow.Ordered

/-- **The invariant**: the array is the map.  While there is no resize the shadow does not matter.
`room` is 1 between making room and using it, and 0 between two calls.  The two bounds in `budget`
tie the numbers of the array to the number of puts, which is bounded, and that is what keeps the
sizes within the list of primes. -/
structure Mh.Keeps (hash : κ → Nat) (m : κ → Option β) (puts room : Nat) (h : Mh κ β) : Prop where
  table : h.table.Fine hash m
  size : h.table.size = used h.table.nBuckets h.table.slots
  before : h.resizePosition < h.table.nBuckets
  bound : h.table.nDirty + room ≤ h.table.upperBound + h.resizePosition / 256
  budget : h.table.nDirty ≤ 2 * puts ∧ h.table.size ≤ puts
  ordered : h.table.Ordered
  pending : 0 < h.resizePosition → h.Pending hash m puts room

section Resize

variable {m : κ → Option β} {puts room : Nat} {h h' : Mh κ β} {nd : Node κ β} {alloc : Nat → Bool}

omit [DecidableEq κ] in
/-- Room that was made and is not used.  This is how a call that only removes ends. -/
theorem Mh.Keeps.weaken (hk : h.Keeps hash m puts 1) : h.Keeps hash m puts 0 where
  table := hk.table
  size := hk.size
  before := hk.before
  bound := Nat.le_of_succ_le hk.bound
  budget := hk.budget
  ordered := hk.ordered
  pending hpos := by
    have hp := hk.pending hpos
    exact ⟨hp.part, hp.grows, Nat.le_of_succ_le hp.dirty, Nat.le_of_succ_le hp.size, hp.budget,
      hp.batch, hp.ordered⟩

omit [DecidableEq κ] in
/-- Fewer nodes were put.  The number of puts is only ever used as a bound. -/
theorem Mh.Keeps.more (hk : h.Keeps hash m puts room) {puts' : Nat} (hle : puts ≤ puts') :
    h.Keeps hash m puts' room where
  table := hk.table
  size := hk.size
  before := hk.before
  bound := hk.bound
  budget := by
    have hbudget := hk.budget
    omega
  ordered := hk.ordered
  pending hpos := by
    have hp := hk.pending hpos
    have hbudget := hp.budget
    exact ⟨hp.part, hp.grows, hp.dirty, hp.size, by omega, hp.batch, hp.ordered⟩

omit [DecidableEq κ] in
/-- The array is not full. -/
theorem Mh.Keeps.notFull (hk : h.Keeps hash m puts room) : h.table.nDirty < h.table.nBuckets := by
  have hbound := hk.bound
  have hbefore := hk.before
  rw [MhTable.upperBound] at hbound
  omega

omit [DecidableEq κ] in
/-- The shadow is longer than all that comes into it. -/
theorem Mh.Pending.enough (hp : h.Pending hash m puts room) (hk : h.table.Fine hash m) :
    h.table.nBuckets + h.table.nBuckets / 256 + 1 ≤ h.shadow.upperBound := by
  obtain ⟨m', hpart⟩ := hp.part
  exact acPrimeList_grows _ hk.buckets _ hpart.fine.buckets hp.grows hpart.fine.small

/-- One slot of the array, with a node in it or not.  A node is taken over into the shadow, and then
the shadow has everything below `i + 1`.  If its key is there already it is the same node, since a
put has written it into both arrays. -/
theorem Part.moveOne {t : MhTable κ β} (ht : t.Fine hash m) {i : Nat} (hi : i < t.nBuckets)
    {s : MhTable κ β} {m' : κ → Option β} (hs : Part hash m t i m' s)
    (hroom : s.nDirty < s.nBuckets) (left batch : Nat) :
    ∃ s₁ m₁, moveFrom hash t (left + 1) (batch + 1) i s = moveFrom hash t left batch (i + 1) s₁ ∧
      Part hash m t (i + 1) m₁ s₁ ∧ s₁.nBuckets = s.nBuckets ∧ s₁.prime = s.prime ∧
      s₁.size = s.size ∧ s₁.nDirty = s.nDirty + if (t.slots i).node.isSome then 1 else 0 := by
  cases hnd : (t.slots i).node with
  | none =>
    refine ⟨s, m', by rw [moveFrom, hnd], ⟨hs.fine, hs.part, fun j hj nd hj' => ?_⟩, rfl, rfl, rfl,
      rfl⟩
    rcases Nat.lt_succ_iff_lt_or_eq.mp hj with hlt | rfl
    · exact hs.below j hlt nd hj'
    · rw [hnd] at hj'
      cases hj'
  | some nd =>
    obtain ⟨s₁, hmove, hfine, hn, hprime, hdirty, hsize⟩ := hs.fine.move hroom nd
    refine ⟨s₁, Function.update m' nd.key (some nd.data), by rw [moveFrom, hnd]; simp only [hmove],
      ⟨hfine, fun k v hv => ?_, fun j hj nd' hj' => ?_⟩, hn, hprime, hsize, hdirty⟩
    · by_cases hk : k = nd.key
      · subst hk
        rw [Function.update_self, Option.some.injEq] at hv
        rw [← hv, ht.maps.holds hi hnd]
      · rw [Function.update_of_ne hk] at hv
        exact hs.part k v hv
    · rcases Nat.lt_succ_iff_lt_or_eq.mp hj with hlt | rfl
      · -- an earlier slot has another key
        have hne : nd'.key ≠ nd.key := by
          intro he
          have := ht.sound.distinct (by omega) hi ⟨nd', hj', rfl⟩ ⟨nd, hnd, he.symm⟩
          omega
        rw [Function.update_of_ne hne]
        exact hs.below j hlt nd' hj'
      · rw [hnd, Option.some.injEq] at hj'
        rw [← hj', Function.update_self]

/-- **The loop of `mh_resize`** moves the nodes of a batch of slots, or of all that are left.  Slots
with no node are passed over.  A node that is already there, since it was put during the resize, is
written again. -/
theorem moveFrom_runs {t : MhTable κ β} (ht : t.Fine hash m) {left batch i : Nat}
    (hend : i + left = t.nBuckets) {s : MhTable κ β} {m' : κ → Option β} (hs : Part hash m t i m' s)
    (hroom : s.nDirty + left < s.nBuckets) :
    ∃ s' m'', moveFrom hash t left batch i s =
        some (if batch < left then some (i + batch) else none, s') ∧
      Part hash m t (i + min batch left) m'' s' ∧ s'.nBuckets = s.nBuckets ∧ s'.prime = s.prime ∧
      s'.size = s.size ∧ s'.nDirty ≤ s.nDirty + min batch left ∧
      s'.nDirty + remaining (i + min batch left) t.nBuckets t.slots ≤
        s.nDirty + remaining i t.nBuckets t.slots := by
  induction left generalizing batch i s m' with
  | zero =>
    refine ⟨s, m', by rw [moveFrom, if_neg (Nat.not_lt_zero _)], ?_, rfl, rfl, rfl, ?_, ?_⟩
    · rwa [Nat.min_zero, Nat.add_zero]
    · exact Nat.le_add_right _ _
    · rw [Nat.min_zero, Nat.add_zero]
  | succ left ih =>
    cases batch with
    | zero =>
      refine ⟨s, m', by rw [moveFrom, if_pos (Nat.succ_pos _), Nat.add_zero], ?_, rfl, rfl, rfl, ?_,
        ?_⟩
      · rwa [Nat.zero_min, Nat.add_zero]
      · exact Nat.le_add_right _ _
      · rw [Nat.zero_min, Nat.add_zero]
    | succ batch =>
      have hi : i < t.nBuckets := by omega
      have hone := remaining_succ (S := t.slots) hi
      -- one slot, and the rest
      obtain ⟨s₁, m₁, hgo, hs₁, hn, hprime, hsize, hdirty⟩ := hs.moveOne ht hi (by omega) left batch
      have hle : s₁.nDirty ≤ s.nDirty + 1 := by
        rw [hdirty]
        split_ifs <;> omega
      obtain ⟨s', m'', hrun, hpart, hn', hprime', hsize', hdirty', hrem⟩ :=
        @ih batch (i + 1) (by omega) s₁ m₁ hs₁ (by omega)
      have hmin : i + min (batch + 1) (left + 1) = i + 1 + min batch left := by omega
      refine ⟨s', m'', ?_, by rwa [hmin], hn'.trans hn, hprime'.trans hprime, hsize'.trans hsize,
        by omega, by rw [hmin]; omega⟩
      rw [hgo, hrun]
      by_cases hlt : batch < left
      · rw [if_pos hlt, if_pos (by omega), Nat.add_right_comm, Nat.add_assoc]
      · rw [if_neg hlt, if_neg (by omega)]

omit [DecidableEq κ] in
/-- At the end of the array the shadow has every key.  It is a part of the map in any case; and
every node of the array is now below the position. -/
theorem Part.whole {t s : MhTable κ β} {m' : κ → Option β} (hs : Part hash m t t.nBuckets m' s)
    (ht : t.Fine hash m) : m' = m := by
  funext k
  cases hk : m k with
  | none =>
    by_contra hne
    obtain ⟨v, hv⟩ := Option.ne_none_iff_exists'.mp hne
    rw [hs.part k v hv] at hk
    cases hk
  | some v =>
    obtain ⟨i, hi, hnd⟩ := (ht.maps k v).mp hk
    exact hs.below i hi _ hnd

/-- **`mh_resize`** moves a batch, which makes room for one node; at the end of the array the shadow
is the map.  All that stood below the position is in the shadow already (`Part.below`), so behind
the last slot it is everything. -/
theorem Mh.Pending.resize (hp : h.Pending hash m puts 0) (htable : h.table.Fine hash m)
    (hsize : h.table.size = used h.table.nBuckets h.table.slots)
    (hbefore : h.resizePosition < h.table.nBuckets)
    (hbound : h.table.nDirty ≤ h.table.upperBound + h.resizePosition / 256)
    (hbudget : h.table.nDirty ≤ 2 * puts ∧ h.table.size ≤ puts) (hordered : h.table.Ordered) :
    ∃ h', mhResize hash h = some h' ∧ h'.Keeps hash m puts 1 := by
  have henough := hp.enough htable
  have hdirty := hp.dirty
  have hshadow := hp.size
  have hremains := hp.budget
  have hbatch := hp.batch
  have hgrows := hp.grows
  obtain ⟨m', hpart⟩ := hp.part
  rw [MhTable.upperBound] at henough
  obtain ⟨s, m'', hrun, hpart', hn, hprime, hsz, hd, hrem⟩ :=
    @moveFrom_runs _ _ _ _ _ _ htable (h.table.nBuckets - h.resizePosition) h.batch
      h.resizePosition (by omega) _ _ hpart (by omega)
  by_cases hmore : h.batch < h.table.nBuckets - h.resizePosition
  · -- the loop stops at the end of the batch
    rw [Nat.min_eq_left (by omega)] at hpart' hd hrem
    refine ⟨{ h with resizePosition := h.resizePosition + h.batch, shadow := s }, ?_, htable, hsize,
      ?_, ?_, hbudget, hordered, fun _ => ⟨⟨m'', hpart'⟩, ?_, ?_, ?_, ?_, hbatch, ?_⟩⟩
    · rw [mhResize, hrun, if_pos hmore]
    · show h.resizePosition + h.batch < h.table.nBuckets
      omega
    · show h.table.nDirty + 1 ≤ h.table.upperBound + (h.resizePosition + h.batch) / 256
      omega
    · show h.table.nBuckets < s.nBuckets
      omega
    · show s.nDirty + 1 ≤ h.resizePosition + h.batch + (h.resizePosition + h.batch) / 256
      omega
    · show s.size + 1 ≤ h.table.nBuckets + (h.resizePosition + h.batch) / 256
      omega
    · show s.nDirty + remaining (h.resizePosition + h.batch) h.table.nBuckets h.table.slots ≤ 2 * puts
      omega
    · intro q hq
      rw [hprime] at hq
      rw [hn]
      exact hp.ordered q hq
  · -- it comes to the end of the array
    have hend : h.resizePosition + min h.batch (h.table.nBuckets - h.resizePosition) =
        h.table.nBuckets := by omega
    rw [hend] at hpart' hrem
    rw [remaining_end, Nat.add_zero] at hrem
    have hfine : s.Fine hash m := hpart'.whole htable ▸ hpart'.fine
    refine ⟨{ h with
        table := { s with size := h.table.size }
        resizePosition := 0
        shadow := { s with size := h.table.size } }, ?_, ?_, ?_, ?_, ?_, ⟨?_, hbudget.2⟩, ?_,
      fun hpos => absurd hpos (Nat.lt_irrefl 0)⟩
    · rw [mhResize, hrun, if_neg hmore]
    · exact ⟨hfine.buckets, hfine.small, hfine.sound, hfine.maps, hfine.touched_le⟩
    · show h.table.size = used s.nBuckets s.slots
      rw [hsize]
      exact htable.maps.used_eq htable.sound hfine.maps hfine.sound
    · exact hfine.prime.pos
    · show s.nDirty + 1 ≤ 7 * s.nBuckets / 10 + 0 / 256
      omega
    · show s.nDirty ≤ 2 * puts
      omega
    · intro q hq
      show q ≤ s.nBuckets
      rw [hn]
      refine hp.ordered q ?_
      rw [← hprime]
      exact hq

/-- The first prime that is large enough, in a list in order.  The resize takes it, and that the
next resize finds a larger one is a matter of how long the list is. -/
theorem primeFrom_first {b q : Nat} {ns : List Nat} (hsorted : ns.Pairwise (· < ·)) (hq : q ∈ ns)
    (hle : b ≤ q) (p : Nat) :
    ∃ i n, primeFrom b ns p = some (p + i, n) ∧ n ∈ ns ∧ b ≤ n ∧ n ≤ q ∧ ∀ x ∈ ns.take i, x < b := by
  induction ns generalizing p with
  | nil => cases hq
  | cons n ns ih =>
    rw [List.pairwise_cons] at hsorted
    rw [primeFrom]
    by_cases hn : b ≤ n
    · refine ⟨0, n, by rw [if_pos hn, Nat.add_zero], List.mem_cons_self, hn, ?_, fun x hx => by
        cases hx⟩
      rcases List.mem_cons.mp hq with rfl | hq
      · exact Nat.le_refl _
      · exact Nat.le_of_lt (hsorted.1 q hq)
    · have hq' : q ∈ ns := by
        rcases List.mem_cons.mp hq with rfl | hq
        · exact absurd hle hn
        · exact hq
      obtain ⟨i, n', hrun, hmem, hb, hnq, htake⟩ := ih hsorted.2 hq' (p + 1)
      refine ⟨i + 1, n', ?_, List.mem_cons_of_mem n hmem, hb, hnq, fun x hx => ?_⟩
      · rw [if_neg hn, hrun, Nat.add_right_comm, Nat.add_assoc]
      · rw [List.take_succ_cons, List.mem_cons] at hx
        rcases hx with rfl | hx
        · omega
        · exact htake x hx

/-- The primes stand in order. -/
theorem acPrimeList_sorted : acPrimeList.Pairwise (· < ·) := by decide

/-- **`mh_start_resize`**: with memory a resize is under way, and without only `prime` is changed.
The new length is the first prime of the list that is longer than the array; there is one, since the
array has fewer slots than `2 ^ 31`. -/
theorem Mh.Keeps.startResize (hk : h.Keeps hash m puts 0) (hputs : puts < 2 ^ 29)
    (hpos : h.resizePosition = 0) (hfull : h.table.upperBound ≤ h.table.nDirty) :
    ∃ goOn h', mhStartResize hash alloc h (h.table.nBuckets + 1) = some (goOn, h') ∧
      (goOn = true → h'.Keeps hash m puts 1) ∧
      (goOn = false → h'.Keeps hash m puts 0 ∧ ∃ n, 0 < n ∧ alloc n = false) := by
  obtain ⟨hdirty, hsize⟩ := hk.budget
  -- so few nodes do not fill the last array but one
  have hsmall : h.table.nBuckets + 1 ≤ 1610612741 := by
    rw [MhTable.upperBound] at hfull
    omega
  have hlast : (1610612741 : Nat) ∈ acPrimeList.drop h.table.prime := by
    have hmem : (1610612741 : Nat) ∈ acPrimeList := by decide
    rw [← List.take_append_drop h.table.prime acPrimeList, List.mem_append] at hmem
    refine hmem.resolve_left fun htake => ?_
    have := hk.ordered _ htake
    omega
  obtain ⟨i, n, hprime, hn, hgrows, hle, htake⟩ := primeFrom_first
    (acPrimeList_sorted.sublist (List.drop_sublist _ _)) hlast hsmall h.table.prime
  have hlist : n ∈ acPrimeList := List.mem_of_mem_drop hn
  have hbig : n < 2 ^ 31 := by omega
  have hpassed : ∀ q ∈ acPrimeList.take (h.table.prime + i), q ≤ h.table.nBuckets := by
    intro q hq
    rw [List.take_add, List.mem_append] at hq
    rcases hq with hq | hq
    · exact hk.ordered q hq
    · exact Nat.le_of_lt_succ (htake q hq)
  have htable : ({ h.table with prime := h.table.prime + i } : MhTable κ β).Fine hash m :=
    ⟨hk.table.buckets, hk.table.small, hk.table.sound, hk.table.maps, hk.table.touched_le⟩
  have hbound := hk.bound
  have hbefore := hk.before
  by_cases hmem : (alloc (8 * n) && alloc (4 * (n / 16 + 1))) = true
  · have hshadow : (⟨n, noSlots, 0, h.table.size, h.table.prime + i⟩ : MhTable κ β).Fine hash
        fun _ => none := fine_noSlots hlist hbig _ _
    have hused : used h.table.nBuckets h.table.slots ≤ h.table.nBuckets :=
      used_le_touched.trans (hk.table.touched_le.trans (Nat.le_of_lt hk.notFull))
    have hp : Mh.Pending hash m puts 0 { h with
        table := { h.table with prime := h.table.prime + i }
        batch := max 256 (h.table.nBuckets / (256 * 1024))
        shadow := ⟨n, noSlots, 0, h.table.size, h.table.prime + i⟩ } := by
      refine ⟨⟨fun _ => none, hshadow, (fun _ _ hv => by cases hv), fun j hj => ?_⟩, hgrows,
        Nat.zero_le _, ?_, ?_, Nat.le_max_left _ _, fun q hq => ?_⟩
      · rw [hpos] at hj
        exact absurd hj (Nat.not_lt_zero j)
      · show h.table.size + 0 ≤ h.table.nBuckets + h.resizePosition / 256
        rw [hk.size]
        omega
      · show 0 + remaining h.resizePosition h.table.nBuckets h.table.slots ≤ 2 * puts
        rw [hpos, remaining_zero, ← hk.size]
        omega
      · exact (hpassed q hq).trans (Nat.le_of_lt hgrows)
    obtain ⟨h', hrun, hkeeps⟩ := hp.resize htable hk.size hbefore hbound hk.budget hpassed
    refine ⟨true, h', ?_, fun _ => hkeeps, fun hf => absurd hf (by decide)⟩
    rw [mhStartResize, hprime]
    simp only [hmem, if_true, hrun, Option.map_some]
  · have hrefused : ∃ n, 0 < n ∧ alloc n = false := by
      rw [Bool.and_eq_true, not_and_or, Bool.not_eq_true, Bool.not_eq_true] at hmem
      exact hmem.elim (fun h => ⟨_, by omega, h⟩) fun h => ⟨_, by omega, h⟩
    refine ⟨false, { h with
      table := { h.table with prime := h.table.prime + i }
      batch := max 256 (h.table.nBuckets / (256 * 1024)) }, ?_, fun hf => absurd hf (by decide),
      fun _ => ⟨⟨htable, hk.size, hbefore, hbound, hk.budget, hpassed, fun h0 => ?_⟩, hrefused⟩⟩
    · rw [mhStartResize, hprime]
      simp only [hmem, if_false, Bool.false_eq_true]
    · exact absurd (hpos ▸ h0) (Nat.lt_irrefl 0)

/-- What `mh_put` does before the node gets its slot.  Three cases: a resize is under way and moves
its next batch; the array is full and a resize begins, which needs memory; there is room anyway.
Only the second can be refused, and then nothing has changed. -/
theorem Mh.Keeps.makeRoom (alloc : Nat → Bool) (hk : h.Keeps hash m puts 0)
    (hputs : puts < 2 ^ 29) :
    ∃ goOn h', mhMakeRoom hash alloc h = some (goOn, h') ∧
      (goOn = true → h'.Keeps hash m puts 1) ∧
      (goOn = false → h'.Keeps hash m puts 0 ∧ ∃ n, 0 < n ∧ alloc n = false) := by
  rw [mhMakeRoom]
  by_cases hpos : 0 < h.resizePosition
  · obtain ⟨h', hrun, hkeeps⟩ := (hk.pending hpos).resize hk.table hk.size hk.before hk.bound
      hk.budget hk.ordered
    refine ⟨true, h', ?_, fun _ => hkeeps, fun hf => absurd hf (by decide)⟩
    rw [if_pos hpos, hrun]
    rfl
  · rw [if_neg hpos]
    by_cases hfull : h.table.upperBound ≤ h.table.nDirty
    · rw [if_pos hfull]
      exact hk.startResize hputs (by omega) hfull
    · refine ⟨true, h, if_neg hfull, fun _ => ?_, fun hf => absurd hf (by decide)⟩
      exact ⟨hk.table, hk.size, hk.before, by omega, hk.budget, hk.ordered,
        fun h0 => absurd h0 hpos⟩

/-- What stands below a position of the array, after a change that the map goes along with.  The
slot that was changed is the only one with the key, and for all others both sides are as before. -/
theorem Part.below_changed {t t' : MhTable κ β} {pos x : Nat} {m' : κ → Option β}
    {s : MhTable κ β} (hs : Part hash m t pos m' s) (hpos : pos ≤ t.nBuckets)
    {node : Option (Node κ β)} (hc : Changed t t' x node) {k : κ} {v : Option β}
    (hnode : ∀ nd, node = some nd → nd.key = k ∧ v = some nd.data)
    (hother : ∀ i < t.nBuckets, i ≠ x → ¬ Holds t'.slots i k) :
    ∀ i < pos, ∀ nd, (t'.slots i).node = some nd → Function.update m' k v nd.key = some nd.data := by
  intro i hi nd hnd
  have hkeep := hc.2.2 i
  by_cases hix : i = x
  · rw [hnd, if_pos hix] at hkeep
    obtain ⟨hkey, hv⟩ := hnode nd hkeep.symm
    rw [hkey, Function.update_self, hv]
  · have hne : nd.key ≠ k := fun he => hother i (by omega) hix ⟨nd, hnd, he⟩
    rw [hnd, if_neg hix] at hkeep
    rw [Function.update_of_ne hne]
    exact hs.below i hi nd hkeep.symm

/-- A part of a map, after the same change to both.  Whether the entry is set or removed. -/
theorem update_part {m' : κ → Option β} (hpart : ∀ k v, m' k = some v → m k = some v) (k : κ)
    (v : Option β) (k' : κ) (v' : β) (h : Function.update m' k v k' = some v') :
    Function.update m k v k' = some v' := by
  by_cases hk : k' = k
  · subst hk
    rwa [Function.update_self] at h ⊢
  · rw [Function.update_of_ne hk] at h ⊢
    exact hpart k' v' h

/-- `mh_put` into the shadow stores the node there.  The shadow is large enough: it has no resize of
its own to begin. -/
theorem Mh.Pending.putShadow (hp : h.Pending hash m puts 1) (htable : h.table.Fine hash m)
    (hbefore : h.resizePosition < h.table.nBuckets) (nd : Node κ β) :
    mhPutShadow hash h.shadow nd = mhStore hash h.shadow nd ∧
      h.shadow.nDirty < h.shadow.nBuckets := by
  have henough := hp.enough htable
  have hdirty := hp.dirty
  have hsize := hp.size
  rw [MhTable.upperBound] at henough
  refine ⟨?_, by omega⟩
  rw [mhPutShadow, if_neg (by omega), if_neg (by rw [MhTable.upperBound]; omega)]

/-- A resize under way, with a node put into both arrays.  The bounds lose the room that was made
for this node, and are tight afterwards. -/
theorem Mh.Pending.stores (hp : h.Pending hash m puts 1) (hbefore : h.resizePosition < h.table.nBuckets)
    {m' : κ → Option β} (hpart : Part hash m h.table h.resizePosition m' h.shadow)
    {t s : MhTable κ β} {x y : Nat} (ht : Stores hash m h.table t x nd)
    (hs : Stores hash m' h.shadow s y nd) :
    ({ h with table := t, shadow := s } : Mh κ β).Pending hash
      (Function.update m nd.key (some nd.data)) (puts + 1) 0 := by
  have hn : t.nBuckets = h.table.nBuckets := ht.changed.2.1
  have hheld : Holds t.slots x nd.key := ⟨nd, by rw [ht.changed.2.2, if_pos rfl], rfl⟩
  have hdirty' := hs.dirty
  have hsize' := hs.size
  refine ⟨⟨_, hs.fine, ?_, ?_⟩, ?_, ?_, ?_, ?_, hp.batch, ?_⟩
  · exact update_part hpart.part nd.key (some nd.data)
  · -- below the position the shadow has all nodes, with the new one among them
    refine hpart.below_changed (Nat.le_of_lt hbefore) ht.changed
      (fun nd' he => by cases he; exact ⟨rfl, rfl⟩) fun i hi hne hholds => hne ?_
    exact ht.fine.sound.distinct (by omega) (hn ▸ ht.changed.1) hholds hheld
  · show t.nBuckets < s.nBuckets
    rw [hn, hs.changed.2.1]
    exact hp.grows
  · -- the room that was made is used up: one slot more is dirty, at most
    have hdirty := hp.dirty
    show s.nDirty + 0 ≤ h.resizePosition + h.resizePosition / 256
    omega
  · have hsize := hp.size
    show s.size + 0 ≤ t.nBuckets + h.resizePosition / 256
    omega
  · have hbudget := hp.budget
    have hrem := @Changed.remaining _ _ _ _ x h.resizePosition _ ht.changed
    show s.nDirty + remaining h.resizePosition t.nBuckets t.slots ≤ 2 * (puts + 1)
    rw [hn]
    simp only [Option.isSome_some, if_true] at hrem
    omega
  · intro q hq
    show q ≤ s.nBuckets
    rw [hs.changed.2.1]
    exact hp.ordered q (hs.prime ▸ hq)

/-- A hash with room for a node, after the node was put into its array; the shadow is there only if
a resize is under way.  All fields but the last are arithmetic on what `Stores` says. -/
theorem Mh.Keeps.stores (hk : h.Keeps hash m puts 1) {t s : MhTable κ β} {x : Nat}
    (ht : Stores hash m h.table t x nd)
    (hpending : 0 < h.resizePosition → ({ h with table := t, shadow := s } : Mh κ β).Pending hash
      (Function.update m nd.key (some nd.data)) (puts + 1) 0) :
    ({ h with table := t, shadow := s } : Mh κ β).Keeps hash
      (Function.update m nd.key (some nd.data)) (puts + 1) 0 := by
  have hn : t.nBuckets = h.table.nBuckets := ht.changed.2.1
  have hbound := hk.bound
  have hbudget := hk.budget
  have hdirty := ht.dirty
  have hsize := ht.size
  have hcounted := ht.counted
  have hsame := hk.size
  refine ⟨ht.fine, ?_, ?_, ?_, ⟨?_, ?_⟩, fun q hq => ?_, hpending⟩
  · show t.size = used t.nBuckets t.slots
    rw [hn]
    omega
  · show h.resizePosition < t.nBuckets
    rw [hn]
    exact hk.before
  · rw [MhTable.upperBound] at hbound
    show t.nDirty + 0 ≤ 7 * t.nBuckets / 10 + h.resizePosition / 256
    rw [hn]
    omega
  · show t.nDirty ≤ 2 * (puts + 1)
    omega
  · show t.size ≤ puts + 1
    omega
  · show q ≤ t.nBuckets
    rw [hn]
    exact hk.ordered q (ht.prime ▸ hq)

/-- **`mh_put`** sets the entry, unless memory is refused.  First room is made, by a batch of a
pending resize or by starting one; then the node goes into the array, and into the shadow if there
is one. -/
theorem Mh.Keeps.put (hk : h.Keeps hash m puts 0) (hputs : puts < 2 ^ 29) (alloc : Nat → Bool)
    (nd : Node κ β) :
    ∃ h' m', mhPut hash alloc h nd = some h' ∧ Call.Does m (.put alloc nd) none m' ∧
      h'.Keeps hash m' (puts + 1) 0 := by
  -- the loop of the source that would not end on a full array is not entered
  have hnotFull : h.table.size ≠ h.table.nBuckets := by
    have hle := used_le_touched.trans hk.table.touched_le
    have hroom := hk.notFull
    rw [← hk.size] at hle
    omega
  obtain ⟨goOn, h₁, hrun, htrue, hfalse⟩ := hk.makeRoom alloc hputs
  cases goOn with
  | false =>
    -- memory was refused, and the map is as it was
    obtain ⟨hkeeps, n, hpos, hn⟩ := hfalse rfl
    refine ⟨h₁, m, ?_, .refused nd hpos hn, hkeeps.more (Nat.le_succ puts)⟩
    rw [mhPut, if_neg hnotFull, hrun]
  | true =>
    have hk₁ := htrue rfl
    obtain ⟨t, x, hstore, ht⟩ := hk₁.table.store hk₁.notFull nd
    by_cases hpos : 0 < h₁.resizePosition
    · -- a resize is pending: the node goes into both arrays
      have hp := hk₁.pending hpos
      obtain ⟨hinto, hroom⟩ := hp.putShadow hk₁.table hk₁.before nd
      obtain ⟨m', hpart⟩ := hp.part
      obtain ⟨s, y, hstore', hs⟩ := hpart.fine.store hroom nd
      refine ⟨{ h₁ with table := t, shadow := s }, _, ?_, .put alloc nd,
        hk₁.stores ht fun _ => hp.stores hk₁.before hpart ht hs⟩
      rw [mhPut, if_neg hnotFull, hrun]
      simp only [if_pos hpos, hinto, hstore', hstore]
    · refine ⟨{ h₁ with table := t, shadow := h₁.shadow }, _, ?_, .put alloc nd,
        hk₁.stores ht fun h0 => absurd h0 hpos⟩
      rw [mhPut, if_neg hnotFull, hrun]
      simp only [if_neg hpos, hstore]

/-- The shadow loses the key, if it has it.  It does not have it if the node stands behind the
position and was there before the resize began. -/
theorem Part.del {t t' : MhTable κ β} {pos x : Nat} {m' : κ → Option β} {s : MhTable κ β}
    (hs : Part hash m t pos m' s) (hpos : pos ≤ t.nBuckets) (hroom : s.nDirty < s.nBuckets)
    {k : κ} (hc : Changed t t' x none) (hother : ∀ i < t.nBuckets, i ≠ x → ¬ Holds t'.slots i k) :
    ∃ y, mhFind hash s k = some y ∧
      Part hash (Function.update m k none) t' pos (Function.update m' k none) (mhTableDel s y) ∧
      (mhTableDel s y).nBuckets = s.nBuckets ∧ (mhTableDel s y).prime = s.prime ∧
      (mhTableDel s y).nDirty ≤ s.nDirty ∧ (mhTableDel s y).size ≤ s.size := by
  have hpart := update_part hs.part k none
  have hbelow := hs.below_changed hpos hc (k := k) (v := none) (fun _ he => by cases he) hother
  obtain ⟨y, hfind, ⟨hy, nd, hnd, rfl⟩ | ⟨rfl, hnone⟩⟩ := hs.fine.find hroom k
  · obtain ⟨hfine, hchanged, hprime, hdirty, hsize⟩ := hs.fine.del hy hnd
    exact ⟨y, hfind, ⟨hfine, hpart, hbelow⟩, hchanged.2.1, hprime, hdirty, by omega⟩
  · have hsame : mhTableDel s s.nBuckets = s := by
      rw [mhTableDel, if_neg fun h => h.1 rfl]
    have hmap : Function.update m' k none = m' := Function.update_eq_self_iff.mpr hnone.symm
    refine ⟨s.nBuckets, hfind, ⟨?_, hpart, hbelow⟩, ?_⟩
    · rw [hsame, hmap]
      exact hs.fine
    · rw [hsame]
      exact ⟨rfl, rfl, Nat.le_refl _, Nat.le_refl _⟩

/-- While a resize is pending the shadow loses the node as well, if it has it, and the resize is
still one that can be gone on with. -/
theorem Mh.Pending.del (hp : h.Pending hash m puts 0) (htable : h.table.Fine hash m)
    (hbefore : h.resizePosition < h.table.nBuckets) {x : Nat} (hx : x < h.table.nBuckets)
    (hnd : (h.table.slots x).node = some nd) :
    ∃ y, mhFind hash h.shadow nd.key = some y ∧
      Mh.Pending hash (Function.update m nd.key none) puts 0
        { h with table := mhTableDel h.table x, shadow := mhTableDel h.shadow y } := by
  obtain ⟨hfine, hchanged, hprime, hdirty, hsz⟩ := htable.del hx hnd
  have hn := hchanged.2.1
  have henough := hp.enough htable
  have hd := hp.dirty
  rw [MhTable.upperBound] at henough
  obtain ⟨m', hpart⟩ := hp.part
  have hgone : ∀ i < h.table.nBuckets, i ≠ x → ¬ Holds (mhTableDel h.table x).slots i nd.key := by
    rintro i hi hne ⟨nd', hnd', hkey⟩
    rw [hchanged.2.2, if_neg hne] at hnd'
    exact hne (htable.sound.distinct hi hx ⟨nd', hnd', hkey⟩ ⟨nd, hnd, rfl⟩)
  obtain ⟨y, hfind, hpart', hsn, hsp, hsd, hss⟩ :=
    hpart.del (Nat.le_of_lt hbefore) (by omega) hchanged hgone
  refine ⟨y, hfind, ⟨_, hpart'⟩, ?_, ?_, ?_, ?_, hp.batch, fun q hq => ?_⟩
  · show (mhTableDel h.table x).nBuckets < (mhTableDel h.shadow y).nBuckets
    rw [hn, hsn]
    exact hp.grows
  · show (mhTableDel h.shadow y).nDirty + 0 ≤ h.resizePosition + h.resizePosition / 256
    omega
  · have := hp.size
    show (mhTableDel h.shadow y).size + 0 ≤
      (mhTableDel h.table x).nBuckets + h.resizePosition / 256
    omega
  · have hb := hp.budget
    have hrem := @Changed.remaining _ _ _ _ x h.resizePosition _ hchanged
    show (mhTableDel h.shadow y).nDirty + remaining h.resizePosition
      (mhTableDel h.table x).nBuckets (mhTableDel h.table x).slots ≤ 2 * puts
    rw [hn]
    simp only [Option.isSome_none, Bool.false_eq_true, if_false] at hrem
    omega
  · show q ≤ (mhTableDel h.shadow y).nBuckets
    rw [hsn]
    exact hp.ordered q (hsp ▸ hq)

/-- **`mh_del`** takes the entry out of the array, and out of the shadow.  The slot stays dirty, so
`n_dirty` does not go down, and the batch that is moved afterwards is what keeps the bound. -/
theorem Mh.Keeps.del (hk : h.Keeps hash m puts 0) {x : Nat} (hx : x < h.table.nBuckets)
    (hnd : (h.table.slots x).node = some nd) :
    ∃ h', mhDel hash h x = some h' ∧ h'.Keeps hash (Function.update m nd.key none) puts 0 := by
  obtain ⟨hfine, hchanged, hprime, hdirty, hsz⟩ := hk.table.del hx hnd
  have hn := hchanged.2.1
  have hbound := hk.bound
  have hbudget := hk.budget
  -- the array has lost a node, and its other numbers are as they were
  have hsize : (mhTableDel h.table x).size =
      used (mhTableDel h.table x).nBuckets (mhTableDel h.table x).slots := by
    have hused := hchanged.used
    have := hk.size
    rw [hnd] at hused
    simp only [Option.isSome_some, Option.isSome_none, if_true, Bool.false_eq_true, if_false] at hused
    rw [hn, hsz]
    omega
  have hordered : (mhTableDel h.table x).Ordered := fun q hq => by
    rw [hn]
    exact hk.ordered q (hprime ▸ hq)
  have hbefore : h.resizePosition < (mhTableDel h.table x).nBuckets := by
    rw [hn]
    exact hk.before
  have hbound' : (mhTableDel h.table x).nDirty ≤
      (mhTableDel h.table x).upperBound + h.resizePosition / 256 := by
    rw [MhTable.upperBound, hn]
    rw [MhTable.upperBound] at hbound
    omega
  have hbudget' : (mhTableDel h.table x).nDirty ≤ 2 * puts ∧ (mhTableDel h.table x).size ≤ puts := by
    omega
  have hdel : mhDel hash h x =
      if 0 < h.resizePosition then mhDelResize hash { h with table := mhTableDel h.table x } nd
      else some { h with table := mhTableDel h.table x } := by
    rw [mhDel, hnd]
    simp only [if_neg (Nat.ne_of_lt hx)]
  by_cases hpos : 0 < h.resizePosition
  · -- a resize is pending: the shadow loses the node as well, if it has it
    obtain ⟨y, hfind, hp'⟩ := (hk.pending hpos).del hk.table hk.before hx hnd
    -- and the next batch is moved
    obtain ⟨h', hrun, hkeeps⟩ := hp'.resize hfine hsize hbefore hbound' hbudget' hordered
    refine ⟨h', ?_, hkeeps.weaken⟩
    rw [hdel, if_pos hpos, mhDelResize, hfind]
    exact hrun
  · refine ⟨{ h with table := mhTableDel h.table x }, by rw [hdel, if_neg hpos], hfine, hsize, hbefore,
      hbound', hbudget', hordered, fun h0 => absurd h0 hpos⟩

end Resize

/-! ## §5 — whole runs. -/

section Runs

variable {m : κ → Option β} {puts : Nat} {h : Mh κ β}

/-- **A look-up** says what the map says. -/
theorem Mh.Keeps.lookup (hk : h.Keeps hash m puts 0) (k : κ) : mhLookup hash h k = some (m k) := by
  obtain ⟨x, hfind, ⟨hx, nd, hnd, rfl⟩ | ⟨rfl, hnone⟩⟩ := hk.table.find hk.notFull k
  · simp only [mhLookup, hfind, bind, Option.bind_some, if_neg (Nat.ne_of_lt hx), hnd,
      Option.map_some, hk.table.maps.holds hx hnd]
  · simp only [mhLookup, hfind, bind, Option.bind_some, if_true, hnone]

/-- `mh_remove` takes the entry of a key out.  If the key is not there nothing is done.  If it is,
its slot is found and emptied. -/
theorem Mh.Keeps.remove (hk : h.Keeps hash m puts 0) (k : κ) :
    ∃ h', mhRemove hash h k = some h' ∧ h'.Keeps hash (Function.update m k none) puts 0 := by
  obtain ⟨x, hfind, ⟨hx, nd, hnd, rfl⟩ | ⟨rfl, hnone⟩⟩ := hk.table.find hk.notFull k
  · obtain ⟨h', hdel, hkeeps⟩ := hk.del hx hnd
    refine ⟨h', ?_, hkeeps⟩
    simp only [mhRemove, hfind, bind, Option.bind_some, if_pos (Nat.ne_of_lt hx), hdel]
  · have hsame : Function.update m k none = m := Function.update_eq_self_iff.mpr hnone.symm
    refine ⟨h, ?_, hsame.symm ▸ hk⟩
    simp only [mhRemove, hfind, bind, Option.bind_some, ne_eq, not_true_eq_false, if_false]

/-- A call.  The step lemma: each call answers as the map does (`Does`) and keeps the invariant. -/
theorem Mh.Keeps.call (hk : h.Keeps hash m puts 0) (c : Call κ β)
    (hputs : c.isPut = true → puts < 2 ^ 29) :
    ∃ h' a m', c.run hash h = some (h', a) ∧ c.Does m a m' ∧
      h'.Keeps hash m' (puts + if c.isPut then 1 else 0) 0 := by
  cases c with
  | put alloc nd =>
    obtain ⟨h', m', hrun, hdoes, hkeeps⟩ := hk.put (hputs rfl) alloc nd
    exact ⟨h', none, m', by rw [Call.run, hrun]; rfl, hdoes, hkeeps⟩
  | remove k =>
    obtain ⟨h', hrun, hkeeps⟩ := hk.remove k
    exact ⟨h', none, _, by rw [Call.run, hrun]; rfl, .remove k, hkeeps⟩
  | find k => exact ⟨h, m k, m, by rw [Call.run, hk.lookup k]; rfl, .find k, hk⟩

/-- All calls.  By induction on the calls.  The number of puts is carried along, since the bound on
it is a bound for the whole run. -/
theorem Mh.Keeps.calls (hk : h.Keeps hash m puts 0) (cs : List (Call κ β))
    (hputs : puts + cs.countP Call.isPut ≤ 2 ^ 29) :
    ∃ h' as m', runCalls hash h cs = some (h', as) ∧ Follows m cs as m' ∧
      h'.Keeps hash m' (puts + cs.countP Call.isPut) 0 := by
  induction cs generalizing h m puts with
  | nil => exact ⟨h, [], m, rfl, .nil m, hk⟩
  | cons c cs ih =>
    rw [List.countP_cons] at hputs
    obtain ⟨h₁, a, m₁, hrun, hdoes, hk₁⟩ := hk.call c fun hput => by
      rw [if_pos hput] at hputs
      omega
    obtain ⟨h', as, m', hruns, hfollows, hk'⟩ := ih hk₁ (by omega)
    refine ⟨h', a :: as, m', ?_, .cons hdoes hfollows, ?_⟩
    · simp only [runCalls, hrun, hruns, bind, Option.bind_some, pure]
    · rw [List.countP_cons, Nat.add_comm (cs.countP _), ← Nat.add_assoc]
      exact hk'

omit [DecidableEq κ] in
/-- **A new hash is the empty map.** -/
theorem mhNew_keeps : (mhNew : Mh κ β).Keeps hash (fun _ => none) 0 0 where
  table := fine_noSlots (by decide) (by decide) 0 0
  size := used_noSlots.symm
  before := Nat.succ_pos 2
  bound := Nat.zero_le _
  budget := ⟨Nat.le_refl 0, Nat.le_refl 0⟩
  ordered := fun q hq => nomatch hq
  pending := fun hpos => absurd hpos (Nat.lt_irrefl 0)

end Runs

end Spec

end TarantoolC.Mhash
