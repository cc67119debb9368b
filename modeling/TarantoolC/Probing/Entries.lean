/-
# TarantoolC.Probing.Entries — an array of slots as a MAP.

What an array that is searched correctly is for: its nodes are the entries of a finite map (`Maps`),
and filling or clearing a slot changes one entry.

Nodes are taken out again here, so that counting nodes does not say whether a slot is open.  What does
is counting the slots that have a node or are dirty (`touched`); all such numbers are instances of
`count`, and one lemma says what a change of one slot does to them (`count_setSlot`).

Like `TarantoolC.Probing`, this is about arrays of slots and no program.

`Maps n S m` relates an array to a function from keys to optional entries in both directions: an
entry is the data of a node with its key, and a node is an entry.  Searching is not part of it.  So
the lemmas about changes have two halves that do not meet: `Sound.fill` keeps the array searchable,
`Maps.fill` says which map it is then, and both ask the same of the slot (it has the key, or it is
empty and no slot has).

Sizes.  A table counts its nodes to say how many entries there are, and its dirty slots to know when
to make room.  `Maps.card` is the first: distinct keys stand in distinct slots, so nodes and entries
are equally many.  `hasOpen_of_touched` is the second: the slots with a node or a mark cannot be all
of them if they are fewer.
-/
import Mathlib
import TarantoolC.Probing

namespace TarantoolC.Probing

variable {κ β : Type}

/-! ## §1 — numbers of slots. -/

/-- How many of `n` slots have a property. -/
def count (p : Nat → Slot κ β → Bool) (n : Nat) (S : Slots κ β) : Nat :=
  ((Finset.range n).filter fun i => p i (S i)).card

/-- How many slots have a node or are dirty. -/
def touched (n : Nat) (S : Slots κ β) : Nat := count (fun _ s => s.node.isSome || s.dirty) n S

/-- How many nodes there are from a slot on. -/
def remaining (pos n : Nat) (S : Slots κ β) : Nat :=
  count (fun i s => decide (pos ≤ i) && s.node.isSome) n S

section Counts

variable {n x pos : Nat} {S S' : Slots κ β} {p q : Nat → Slot κ β → Bool}

/-- The nodes are a number of the kind that `count_setSlot` is about. -/
theorem used_eq_count : used n S = count (fun _ s => s.node.isSome) n S := rfl

/-- A count is a sum of zeros and ones, which is how Mathlib's lemmas apply to it. -/
theorem count_eq_sum : count p n S = ∑ i ∈ Finset.range n, if p i (S i) then 1 else 0 :=
  Finset.card_filter _ _

/-- **One slot is changed**: it counts as it did before, or as it does now.  Nodes, marks and slots
that have either are counted by this one function, with different questions. -/
theorem count_setSlot (p : Nat → Slot κ β → Bool) (s : Slot κ β) (hx : x < n) :
    count p n (setSlot S x s) + (if p x (S x) then 1 else 0) =
      count p n S + if p x s then 1 else 0 := by
  have hmem : x ∈ Finset.range n := Finset.mem_range.mpr hx
  have hrest : ∑ i ∈ (Finset.range n).erase x, (if p i (setSlot S x s i) then 1 else 0) =
      ∑ i ∈ (Finset.range n).erase x, if p i (S i) then 1 else 0 := by
    refine Finset.sum_congr rfl fun i hi => ?_
    rw [setSlot_apply, if_neg (Finset.ne_of_mem_erase hi)]
  rw [count_eq_sum, count_eq_sum, ← Finset.add_sum_erase _ _ hmem, ← Finset.add_sum_erase _ _ hmem,
    hrest, setSlot_self]
  ring

/-- Counts compare if their properties do, slot by slot. -/
theorem count_mono (h : ∀ i < n, p i (S i) = true → q i (S' i) = true) :
    count p n S ≤ count q n S' := by
  refine Finset.card_le_card fun i hi => ?_
  rw [Finset.mem_filter, Finset.mem_range] at hi ⊢
  exact ⟨hi.1, h i hi.1 hi.2⟩

/-- Counts are equal if their properties agree, slot by slot. -/
theorem count_congr (h : ∀ i < n, p i (S i) = q i (S' i)) : count p n S = count q n S' :=
  Nat.le_antisymm (count_mono fun i hi hp => by rwa [← h i hi])
    (count_mono fun i hi hq => by rwa [h i hi])

/-- What a change of one slot does to the touched ones. -/
theorem touched_setSlot (s : Slot κ β) (hx : x < n) :
    touched n (setSlot S x s) + (if (S x).node.isSome || (S x).dirty then 1 else 0) =
      touched n S + if s.node.isSome || s.dirty then 1 else 0 :=
  count_setSlot (fun _ s => s.node.isSome || s.dirty) s hx

/-- A slot that is marked has a node, and is counted already. -/
theorem touched_mark (hx : x < n) (hsome : (S x).node.isSome = true) :
    touched n (setSlot S x ⟨(S x).node, true⟩) = touched n S := by
  have hset := touched_setSlot (S := S) ⟨(S x).node, true⟩ hx
  simp only [hsome, Bool.true_or, if_true] at hset
  exact Nat.add_right_cancel hset

/-- A slot with a node is touched. -/
theorem used_le_touched : used n S ≤ touched n S := by
  rw [used_eq_count, touched]
  refine count_mono fun i _ h => ?_
  rw [h, Bool.true_or]

theorem touched_noSlots : touched n (noSlots : Slots κ β) = 0 := by
  rw [touched, count_eq_sum]
  simp [noSlots]

/-- **Fewer touched slots than slots leave one open.** -/
theorem hasOpen_of_touched (h : touched n S < n) : HasOpen n S := by
  by_contra hno
  have hall : ∀ i < n, ((S i).node.isSome || (S i).dirty) = true := by
    intro i hi
    by_contra hfree
    simp only [Bool.or_eq_true, not_or, Bool.not_eq_true, Option.isSome_eq_false_iff,
      Option.isNone_iff_eq_none] at hfree
    exact hno ⟨i, hi, hfree⟩
  have hn : touched n S = n := by
    rw [touched, count, Finset.filter_true_of_mem fun i hi => hall i (Finset.mem_range.mp hi),
      Finset.card_range]
  omega

/-- All nodes remain at the start, and none at the end. -/
theorem remaining_zero : remaining 0 n S = used n S := by
  rw [used_eq_count, remaining]
  refine count_congr fun i _ => ?_
  rw [decide_eq_true (Nat.zero_le i), Bool.true_and]

/-- Nothing remains behind the last slot. -/
theorem remaining_end : remaining n n S = 0 := by
  rw [remaining, count, Finset.card_eq_zero, Finset.filter_eq_empty_iff]
  intro i hi h
  have hlt := Finset.mem_range.mp hi
  simp only [Bool.and_eq_true, decide_eq_true_eq] at h
  omega

/-- One slot further. -/
theorem remaining_succ (hpos : pos < n) :
    remaining pos n S = remaining (pos + 1) n S + if (S pos).node.isSome then 1 else 0 := by
  have hmem : pos ∈ Finset.range n := Finset.mem_range.mpr hpos
  rw [remaining, remaining, count_eq_sum, count_eq_sum, ← Finset.add_sum_erase _ _ hmem,
    ← Finset.add_sum_erase (Finset.range n)
      (fun i => if decide (pos + 1 ≤ i) && (S i).node.isSome then 1 else 0) hmem]
  have hrest : ∑ i ∈ (Finset.range n).erase pos,
        (if decide (pos ≤ i) && (S i).node.isSome then 1 else 0) =
      ∑ i ∈ (Finset.range n).erase pos,
        if decide (pos + 1 ≤ i) && (S i).node.isSome then 1 else 0 := by
    refine Finset.sum_congr rfl fun i hi => ?_
    have hne := Finset.ne_of_mem_erase hi
    have hiff : pos ≤ i ↔ pos + 1 ≤ i := by omega
    simp only [hiff]
  rw [hrest]
  simp only [Nat.le_refl, decide_true, Bool.true_and, Nat.not_succ_le_self, decide_false,
    Bool.false_and, Bool.false_eq_true, if_false]
  omega

end Counts

/-! ## §2 — the map. -/

/-- The nodes of `n` slots are the entries of a map. -/
def Maps (n : Nat) (S : Slots κ β) (m : κ → Option β) : Prop :=
  ∀ k v, m k = some v ↔ ∃ i < n, (S i).node = some ⟨k, v⟩

section Entries

variable {n x : Nat} {S S' : Slots κ β} {m : κ → Option β} {hash : κ → Nat}

/-- The empty array is the empty map. -/
theorem maps_noSlots : Maps n (noSlots : Slots κ β) fun _ => none := by
  intro k v
  simp [noSlots]

/-- The map is a matter of the nodes: marks do not change it. -/
theorem Maps.of_node (h : Maps n S m) (hnode : ∀ i < n, (S' i).node = (S i).node) : Maps n S' m := by
  intro k v
  rw [h k v]
  constructor <;> rintro ⟨i, hi, hnd⟩
  · exact ⟨i, hi, (hnode i hi).trans hnd⟩
  · exact ⟨i, hi, (hnode i hi).symm.trans hnd⟩

/-- A node's data are the entry of its key. -/
theorem Maps.holds (h : Maps n S m) {i : Nat} {nd : Node κ β} (hi : i < n)
    (hnd : (S i).node = some nd) : m nd.key = some nd.data :=
  (h nd.key nd.data).mpr ⟨i, hi, hnd⟩

/-- A key that no node has is not in the map. -/
theorem Maps.absent (h : Maps n S m) {k : κ} (hno : ∀ i < n, ¬ Holds S i k) : m k = none := by
  by_contra hne
  obtain ⟨v, hv⟩ := Option.ne_none_iff_exists'.mp hne
  obtain ⟨i, hi, hnd⟩ := (h k v).mp hv
  exact hno i hi ⟨_, hnd, rfl⟩

variable [DecidableEq κ]

/-- **A slot is filled**: one entry is set. -/
theorem Maps.fill (h : Maps n S m) (hdistinct : ∀ {i i' : Nat} {k : κ}, i < n → i' < n →
      Holds S i k → Holds S i' k → i = i') (hx : x < n) {nd : Node κ β} {d : Bool}
    (hwhere : Holds S x nd.key ∨ (S x).node = none ∧ ∀ i < n, ¬ Holds S i nd.key) :
    Maps n (setSlot S x ⟨some nd, d⟩) (Function.update m nd.key (some nd.data)) := by
  -- no other slot has the key of the node, and `x` has no other key
  have hother : ∀ i < n, i ≠ x → ¬ Holds S i nd.key := by
    intro i hi hne hk
    rcases hwhere with hold | ⟨-, hnone⟩
    · exact hne (hdistinct hi hx hk hold)
    · exact hnone i hi hk
  have hold : ∀ k v, (S x).node = some ⟨k, v⟩ → k = nd.key := by
    intro k v hnd
    rcases hwhere with ⟨nd', hnd', hkey⟩ | ⟨hnone, -⟩
    · rw [hnd', Option.some.injEq] at hnd
      rw [← hkey, hnd]
    · rw [hnone] at hnd
      cases hnd
  intro k v
  by_cases hk : k = nd.key
  · subst hk
    rw [Function.update_self, Option.some.injEq]
    constructor
    · rintro rfl
      exact ⟨x, hx, by rw [setSlot_self]⟩
    · rintro ⟨i, hi, hnd⟩
      rw [setSlot_apply] at hnd
      split_ifs at hnd with hix
      · rw [Option.some.injEq] at hnd
        rw [hnd]
      · exact absurd ⟨_, hnd, rfl⟩ (hother i hi hix)
  · rw [Function.update_of_ne hk, h k v]
    constructor
    · rintro ⟨i, hi, hnd⟩
      have hix : i ≠ x := fun he => hk (hold k v (he ▸ hnd))
      exact ⟨i, hi, by rw [setSlot_apply, if_neg hix, hnd]⟩
    · rintro ⟨i, hi, hnd⟩
      rw [setSlot_apply] at hnd
      split_ifs at hnd with hix
      · rw [Option.some.injEq] at hnd
        exact absurd (congrArg Node.key hnd).symm hk
      · exact ⟨i, hi, hnd⟩

/-- **A slot is cleared**: one entry goes. -/
theorem Maps.clear (h : Maps n S m) (hdistinct : ∀ {i i' : Nat} {k : κ}, i < n → i' < n →
      Holds S i k → Holds S i' k → i = i') (hx : x < n) {nd : Node κ β} {d : Bool}
    (hnd : (S x).node = some nd) :
    Maps n (setSlot S x ⟨none, d⟩) (Function.update m nd.key none) := by
  intro k v
  by_cases hk : k = nd.key
  · subst hk
    rw [Function.update_self]
    constructor
    · exact fun hv => by cases hv
    · rintro ⟨i, hi, hi'⟩
      rw [setSlot_apply] at hi'
      split_ifs at hi' with hix
      exact absurd (hdistinct hi hx ⟨_, hi', rfl⟩ ⟨nd, hnd, rfl⟩) hix
  · rw [Function.update_of_ne hk, h k v]
    constructor
    · rintro ⟨i, hi, hi'⟩
      have hix : i ≠ x := by
        rintro rfl
        rw [hnd, Option.some.injEq] at hi'
        exact hk (congrArg Node.key hi').symm
      exact ⟨i, hi, by rw [setSlot_apply, if_neg hix, hi']⟩
    · rintro ⟨i, hi, hi'⟩
      rw [setSlot_apply] at hi'
      split_ifs at hi' with hix
      exact ⟨i, hi, hi'⟩

/-- **The map has as many entries as there are nodes.**  Distinct slots have distinct keys, in an
array that is searched correctly. -/
theorem Maps.card (h : Maps n S m) (hsound : Sound hash n S) :
    ∃ keys : Finset κ, (∀ k, k ∈ keys ↔ (m k).isSome) ∧ keys.card = used n S := by
  -- the key of each slot
  let keyAt : Nat → Finset κ := fun i => ((S i).node.map Node.key).toFinset
  have hmem : ∀ i k, k ∈ keyAt i ↔ Holds S i k := by
    intro i k
    simp only [keyAt, Option.mem_toFinset, Option.mem_def, Option.map_eq_some_iff, Holds]
  refine ⟨(Finset.range n).biUnion keyAt, fun k => ?_, ?_⟩
  · rw [Finset.mem_biUnion, Option.isSome_iff_exists]
    constructor
    · rintro ⟨i, hi, hk⟩
      obtain ⟨nd, hnd, rfl⟩ := (hmem i k).mp hk
      exact ⟨nd.data, h.holds (Finset.mem_range.mp hi) hnd⟩
    · rintro ⟨v, hv⟩
      obtain ⟨i, hi, hnd⟩ := (h k v).mp hv
      exact ⟨i, Finset.mem_range.mpr hi, (hmem i k).mpr ⟨_, hnd, rfl⟩⟩
  · rw [Finset.card_biUnion, used_eq_count, count_eq_sum]
    · refine Finset.sum_congr rfl fun i _ => ?_
      cases hnd : (S i).node with
      | none => simp [keyAt, hnd]
      | some nd => simp [keyAt, hnd]
    · intro i hi j hj hne
      refine Finset.disjoint_left.mpr fun k hk hk' => hne ?_
      exact hsound.distinct (Finset.mem_range.mp hi) (Finset.mem_range.mp hj) ((hmem i k).mp hk)
        ((hmem j k).mp hk')

/-- Two arrays with the same entries have the same number of nodes. -/
theorem Maps.used_eq {n' : Nat} (h : Maps n S m) (hsound : Sound hash n S) (h' : Maps n' S' m)
    (hsound' : Sound hash n' S') : used n S = used n' S' := by
  obtain ⟨keys, hmem, hcard⟩ := h.card hsound
  obtain ⟨keys', hmem', hcard'⟩ := h'.card hsound'
  have hkeys : keys = keys' := Finset.ext fun k => (hmem k).trans (hmem' k).symm
  rw [← hcard, ← hcard', hkeys]

end Entries

end TarantoolC.Probing
