/-
# TarantoolC.Probing — open addressing with double hashing.

A hash that keeps its nodes in the slots of one array.  A key has a first slot and a stride, and is
looked for along the slots one stride apart; a slot that such a way has gone through is marked
dirty, and the search goes on behind dirty slots only.  With a prime number of slots every way
visits all of them (`probe_surjective`).

This file is about arrays of slots and says nothing of any program: which arrays are searched
correctly (`Sound`), what makes a search end (`HasOpen`), and which single changes keep that
(`Sound.mark`, `Sound.fill`, `Sound.clear`).

The three notions are kept apart on purpose.  That a search finds the key if it is there is a matter
of the DIRTY slots alone: between the first slot of a key and the slot it stands in, all are dirty
(`Sound`).  That a search ends is a matter of the EMPTY ones: some way meets a slot that is not
dirty (`HasOpen`).  And that a search which ends without the key has not missed it follows from the
two (`Sound.absent`).  A table may lose the second without the first, when it is filled up; the
tables that use this library show how they do not.

A way is given by its number of strides, `probe n h j`, not by the list of its slots; so an
invariant of a search is about all `j` below the one it has come to (`Came`), and the induction of a
search is on `j`.

* `Sound.mark` — a slot may become dirty at any time: ways only get longer;
* `Sound.fill` — a node may be put where a way of its key has come to, if no other slot has the key;
* `Sound.clear` — a node may be taken out if its slot stays as dirty as it was.
-/
import Mathlib.Data.Nat.ModEq
import Mathlib.Data.Nat.Prime.Basic
import Mathlib.Data.Finset.Card

namespace TarantoolC.Probing

/-! ## §1 — the way of a key.

Arithmetic modulo a prime: a way of `n` strides comes to every slot, and to none of them twice. -/

/-- The slot after `j` strides, of `n` slots, for a hash value. -/
def probe (n h j : Nat) : Nat := (h % n + j * (1 + h % (n - 1))) % n

/-- Ways stay among the slots. -/
theorem probe_lt {n : Nat} (hn : 0 < n) (h j : Nat) : probe n h j < n := Nat.mod_lt _ hn

/-- A way starts at the remainder of the hash value, ... -/
theorem probe_zero (n h : Nat) : probe n h 0 = h % n := by
  rw [probe, Nat.zero_mul, Nat.add_zero, Nat.mod_mod]

/-- The stride is shorter than the array. -/
theorem stride_lt {n : Nat} (hn : 1 < n) (h : Nat) : 1 + h % (n - 1) < n := by
  have := Nat.mod_lt h (show 0 < n - 1 by omega)
  omega

/-- ... and goes on by the stride, around the end. -/
theorem probe_succ (n h j : Nat) : probe n h (j + 1) = (probe n h j + (1 + h % (n - 1))) % n := by
  rw [probe, probe, Nat.mod_add_mod (h % n + _), Nat.succ_mul, ← Nat.add_assoc]

/-- **Every way visits every slot.**  The stride is not 0 modulo the prime, so its multiples are all
residues. -/
theorem probe_surjective {n : Nat} (hn : n.Prime) (h : Nat) {i : Nat} (hi : i < n) :
    ∃ j < n, probe n h j = i := by
  have hcop : Nat.Coprime (1 + h % (n - 1)) n :=
    (Nat.coprime_of_lt_prime (by omega) (stride_lt hn.one_lt h) hn).symm
  obtain ⟨u, -, hu⟩ := Nat.exists_mul_mod_eq_one_of_coprime hcop hn.one_lt
  -- the way back from the first slot, times the inverse of the stride
  refine ⟨(i + (n - h % n)) * u % n, Nat.mod_lt _ hn.pos, ?_⟩
  have hmod : h % n < n := Nat.mod_lt _ hn.pos
  have hstride : (i + (n - h % n)) * u % n * (1 + h % (n - 1)) ≡ i + (n - h % n) [MOD n] := by
    calc (i + (n - h % n)) * u % n * (1 + h % (n - 1))
        ≡ (i + (n - h % n)) * u * (1 + h % (n - 1)) [MOD n] := (Nat.mod_modEq _ _).mul_right _
      _ = (i + (n - h % n)) * ((1 + h % (n - 1)) * u) := by
          rw [Nat.mul_assoc, Nat.mul_comm u]
      _ ≡ (i + (n - h % n)) * 1 [MOD n] := by
          apply Nat.ModEq.mul_left
          rw [Nat.ModEq, hu, Nat.mod_eq_of_lt hn.one_lt]
      _ = i + (n - h % n) := Nat.mul_one _
  have hsum : h % n + (i + (n - h % n)) = i + n := by omega
  have hall := (Nat.ModEq.refl (h % n)).add hstride
  rw [hsum, Nat.ModEq] at hall
  rw [probe, hall, Nat.add_mod_right, Nat.mod_eq_of_lt hi]

/-! ## §2 — arrays of slots.

What stands where, which slots are dirty, and what a search needs of the two. -/

/-- A node, found by its key. -/
structure Node (κ β : Type) where
  key : κ
  data : β

/-- A slot: its node, if one is there, and whether a way has gone through it. -/
structure Slot (κ β : Type) where
  node : Option (Node κ β)
  dirty : Bool

abbrev Slots (κ β : Type) := Nat → Slot κ β

variable {κ β : Type}

def noSlots : Slots κ β := fun _ => ⟨none, false⟩

/-- The array with another slot at `i`. -/
def setSlot (S : Slots κ β) (i : Nat) (s : Slot κ β) : Slots κ β :=
  fun j => bif Nat.beq j i then s else S j

/-- An array with one slot changed, read at any slot. -/
theorem setSlot_apply (S : Slots κ β) (i : Nat) (s : Slot κ β) (j : Nat) :
    setSlot S i s j = if j = i then s else S j := by
  by_cases h : j = i
  · rw [setSlot, h, Nat.beq_refl, if_pos rfl]
    rfl
  · have hbeq : Nat.beq j i = false := Bool.eq_false_iff.mpr fun hb => h (Nat.eq_of_beq_eq_true hb)
    rw [setSlot, hbeq, if_neg h]
    rfl

@[simp] theorem setSlot_self (S : Slots κ β) (i : Nat) (s : Slot κ β) : setSlot S i s i = s := by
  rw [setSlot_apply, if_pos rfl]

/-- The slot has a node with the key. -/
def Holds (S : Slots κ β) (i : Nat) (k : κ) : Prop := ∃ nd, (S i).node = some nd ∧ nd.key = k

/-- Among `n` slots, each node stands on the way of its key behind dirty slots only, and no two have
one key. -/
structure Sound (hash : κ → Nat) (n : Nat) (S : Slots κ β) : Prop where
  reach : ∀ {i : Nat} {nd : Node κ β}, i < n → (S i).node = some nd →
    ∃ j, probe n (hash nd.key) j = i ∧ ∀ m < j, (S (probe n (hash nd.key) m)).dirty = true
  distinct : ∀ {i i' : Nat} {k : κ}, i < n → i' < n → Holds S i k → Holds S i' k → i = i'

/-- No way goes through an empty slot: nothing has been taken out. -/
def Packed (n : Nat) (S : Slots κ β) : Prop := ∀ i < n, (S i).dirty = true → (S i).node ≠ none

/-- Some slot is empty, and ends every way that comes to it. -/
def HasOpen (n : Nat) (S : Slots κ β) : Prop := ∃ i < n, (S i).node = none ∧ (S i).dirty = false

/-- How many nodes there are. -/
def used (n : Nat) (S : Slots κ β) : Nat := ((Finset.range n).filter fun i => (S i).node.isSome).card

/-- A way comes from dirty slots without the key to the slot after `j` strides. -/
def Came (hash : κ → Nat) (n : Nat) (S : Slots κ β) (k : κ) (j : Nat) : Prop :=
  ∀ m < j, (S (probe n (hash k) m)).dirty = true ∧ ¬ Holds S (probe n (hash k) m) k

section Ways

variable {hash : κ → Nat} {n : Nat} {S S' : Slots κ β} {k : κ} {j x : Nat}

/-- The empty array is searched correctly, has nothing taken out, and has no nodes. -/
theorem sound_noSlots : Sound hash n (noSlots : Slots κ β) := by
  constructor
  · intro i nd _ h
    exact absurd h (by simp [noSlots])
  · rintro i i' k _ _ ⟨nd, h, -⟩
    exact absurd h (by simp [noSlots])

theorem packed_noSlots : Packed n (noSlots : Slots κ β) := by
  intro i _ h
  exact absurd h (by simp [noSlots])

theorem used_noSlots : used n (noSlots : Slots κ β) = 0 := by
  simp [used, noSlots]

/-- Every way has come to its first slot. -/
theorem came_zero : Came hash n S k 0 := fun m hm => absurd hm (Nat.not_lt_zero m)

/-- **A step of a search**: past a dirty slot that does not have the key. -/
theorem Came.succ (h : Came hash n S k j) (hdirty : (S (probe n (hash k) j)).dirty = true)
    (hno : ¬ Holds S (probe n (hash k) j) k) : Came hash n S k (j + 1) := by
  intro m hm
  rcases Nat.lt_succ_iff_lt_or_eq.mp hm with hm | rfl
  · exact h m hm
  · exact ⟨hdirty, hno⟩

/-- **A way that ends without the key has not missed it.**  Had the key been in a slot, all slots on
the way to it were dirty, and the search had gone on. -/
theorem Sound.absent (h : Sound hash n S) (hcame : Came hash n S k j)
    (hno : ¬ Holds S (probe n (hash k) j) k) (hend : (S (probe n (hash k) j)).dirty = false)
    {i : Nat} (hi : i < n) : ¬ Holds S i k := by
  rintro ⟨nd, hnd, rfl⟩
  obtain ⟨j', rfl, hway⟩ := h.reach hi hnd
  rcases Nat.lt_trichotomy j' j with hlt | rfl | hgt
  · exact (hcame j' hlt).2 ⟨nd, hnd, rfl⟩
  · exact hno ⟨nd, hnd, rfl⟩
  · exact absurd (hway j hgt) (by simp [hend])

/-- A way comes to the end before it has seen all slots. -/
theorem Came.lt (hcame : Came hash n S k j) (hn : n.Prime) (hopen : HasOpen n S) : j < n := by
  obtain ⟨i, hi, -, hclean⟩ := hopen
  obtain ⟨J, hJ, rfl⟩ := probe_surjective hn (hash k) hi
  by_contra hge
  exact absurd (hcame J (by omega)).1 (by simp [hclean])

/-! The changes. -/

/-- Keys are a matter of nodes, not of marks. -/
theorem holds_iff_of_node {i : Nat} (h : (S' i).node = (S i).node) : Holds S' i k ↔ Holds S i k := by
  rw [Holds, Holds, h]

/-- What depends on the nodes alone, and on dirty slots staying dirty. -/
theorem Sound.of_le (h : Sound hash n S) (hnode : ∀ i < n, (S' i).node = (S i).node)
    (hdirty : ∀ i, (S i).dirty = true → (S' i).dirty = true) : Sound hash n S' := by
  constructor
  · intro i nd hi hnd
    rw [hnode i hi] at hnd
    obtain ⟨j, hj, hway⟩ := h.reach hi hnd
    exact ⟨j, hj, fun m hm => hdirty _ (hway m hm)⟩
  · intro i i' k hi hi' hk hk'
    rw [holds_iff_of_node (hnode i hi)] at hk
    rw [holds_iff_of_node (hnode i' hi')] at hk'
    exact h.distinct hi hi' hk hk'

/-- A slot is marked. -/
theorem mark_node (S : Slots κ β) (x i : Nat) :
    (setSlot S x ⟨(S x).node, true⟩ i).node = (S i).node := by
  rw [setSlot_apply]
  split_ifs with h
  · rw [h]
  · rfl

/-- Marking a slot leaves the marks there are. -/
theorem mark_dirty {i : Nat} (h : (S i).dirty = true) :
    (setSlot S x ⟨(S x).node, true⟩ i).dirty = true := by
  rw [setSlot_apply]
  split_ifs
  · rfl
  · exact h

/-- ... so a way that has come somewhere still comes there, ... -/
theorem Came.mark (h : Came hash n S k j) : Came hash n (setSlot S x ⟨(S x).node, true⟩) k j := by
  intro m hm
  obtain ⟨hdirty, hno⟩ := h m hm
  exact ⟨mark_dirty hdirty, fun hk => hno ((holds_iff_of_node (mark_node S x _)).mp hk)⟩

/-- ... and every node is found where it was: a mark only makes ways longer. -/
theorem Sound.mark (h : Sound hash n S) : Sound hash n (setSlot S x ⟨(S x).node, true⟩) :=
  h.of_le (fun i _ => mark_node S x i) fun _ => mark_dirty

/-- A mark on a slot with a node leads through no empty slot. -/
theorem Packed.mark (h : Packed n S) (hx : (S x).node ≠ none) :
    Packed n (setSlot S x ⟨(S x).node, true⟩) := by
  intro i hi hdirty
  rw [mark_node]
  rw [setSlot_apply] at hdirty
  split_ifs at hdirty with hix
  · rw [hix]
    exact hx
  · exact h i hi hdirty

/-- A node is put where its key is already, or where its way ends. -/
theorem Sound.fill (h : Sound hash n S) {nd : Node κ β} (hx : x < n)
    (hwhere : Holds S x nd.key ∨
      (∃ j, probe n (hash nd.key) j = x ∧ Came hash n S nd.key j) ∧ ∀ i < n, ¬ Holds S i nd.key) :
    Sound hash n (setSlot S x ⟨some nd, (S x).dirty⟩) := by
  have hdirty (i : Nat) : (setSlot S x ⟨some nd, (S x).dirty⟩ i).dirty = (S i).dirty := by
    rw [setSlot_apply]
    split_ifs with hix
    · rw [hix]
    · rfl
  -- any other slot with the key of the new node has it in `S` too
  have hother {i : Nat} (hi : i < n) (hne : i ≠ x) : ¬ Holds S i nd.key := by
    rcases hwhere with hold | ⟨-, hnone⟩
    · exact fun hk => hne (h.distinct hi hx hk hold)
    · exact hnone i hi
  have hholds {i : Nat} {k : κ} (hk : Holds (setSlot S x ⟨some nd, (S x).dirty⟩) i k) :
      (i = x ∧ k = nd.key) ∨ (i ≠ x ∧ Holds S i k) := by
    obtain ⟨nd', hnd', hkey⟩ := hk
    rw [setSlot_apply] at hnd'
    split_ifs at hnd' with hix
    · obtain rfl := Option.some.inj hnd'
      exact .inl ⟨hix, hkey.symm⟩
    · exact .inr ⟨hix, nd', hnd', hkey⟩
  constructor
  · intro i nd' hi hnd'
    simp only [hdirty]
    rw [setSlot_apply] at hnd'
    split_ifs at hnd' with hix
    · obtain rfl := Option.some.inj hnd'
      rw [hix]
      rcases hwhere with ⟨nd₀, hnd₀, hkey⟩ | ⟨⟨j, hj, hcame⟩, -⟩
      · rw [← hkey]
        exact h.reach hx hnd₀
      · exact ⟨j, hj, fun m hm => (hcame m hm).1⟩
    · exact h.reach hi hnd'
  · intro i i' k hi hi' hk hk'
    rcases hholds hk with ⟨rfl, rfl⟩ | ⟨hne, hold⟩
    · rcases hholds hk' with ⟨rfl, -⟩ | ⟨hne', hold'⟩
      · rfl
      · exact absurd hold' (hother hi' hne')
    · rcases hholds hk' with ⟨rfl, rfl⟩ | ⟨-, hold'⟩
      · exact absurd hold (hother hi hne)
      · exact h.distinct hi hi' hold hold'

/-- Filling a slot takes nothing out. -/
theorem Packed.fill (h : Packed n S) (nd : Node κ β) :
    Packed n (setSlot S x ⟨some nd, (S x).dirty⟩) := by
  intro i hi hdirty
  rw [setSlot_apply] at hdirty ⊢
  split_ifs with hix
  · exact Option.some_ne_none nd
  · rw [if_neg hix] at hdirty
    exact h i hi hdirty

/-- A node is taken out; ways still go through its slot. -/
theorem Sound.clear (h : Sound hash n S) : Sound hash n (setSlot S x ⟨none, (S x).dirty⟩) := by
  have hdirty (i : Nat) : (setSlot S x ⟨none, (S x).dirty⟩ i).dirty = (S i).dirty := by
    rw [setSlot_apply]
    split_ifs with hix
    · rw [hix]
    · rfl
  have hnode {i : Nat} {nd : Node κ β} (hnd : (setSlot S x ⟨none, (S x).dirty⟩ i).node = some nd) :
      (S i).node = some nd := by
    rw [setSlot_apply] at hnd
    split_ifs at hnd
    exact hnd
  constructor
  · intro i nd hi hnd
    simp only [hdirty]
    exact h.reach hi (hnode hnd)
  · rintro i i' k hi hi' ⟨nd, hnd, hk⟩ ⟨nd', hnd', hk'⟩
    exact h.distinct hi hi' ⟨nd, hnode hnd, hk⟩ ⟨nd', hnode hnd', hk'⟩

/-- Clearing a slot closes no other. -/
theorem HasOpen.clear (h : HasOpen n S) : HasOpen n (setSlot S x ⟨none, (S x).dirty⟩) := by
  obtain ⟨i, hi, hnode, hclean⟩ := h
  refine ⟨i, hi, ?_⟩
  rw [setSlot_apply]
  split_ifs with hix
  · exact ⟨rfl, hix ▸ hclean⟩
  · exact ⟨hnode, hclean⟩

/-! How many nodes there are. -/

/-- The number of nodes is a matter of the nodes. -/
theorem used_congr (h : ∀ i < n, (S' i).node = (S i).node) : used n S' = used n S := by
  rw [used, used]
  congr 1
  apply Finset.filter_congr
  intro i hi
  rw [h i (Finset.mem_range.mp hi)]

/-- One more node at most. -/
theorem used_setSlot_le (s : Slot κ β) : used n (setSlot S x s) ≤ used n S + 1 := by
  rw [used, used]
  refine (Finset.card_le_card ?_).trans (Finset.card_insert_le x _)
  intro i hi
  obtain ⟨hn, hsome⟩ := Finset.mem_filter.mp hi
  rw [setSlot_apply] at hsome
  rw [Finset.mem_insert, Finset.mem_filter]
  split_ifs at hsome with hix
  · exact .inl hix
  · exact .inr ⟨hn, hsome⟩

/-- None, where one is replaced. -/
theorem used_setSlot_of_some (s : Slot κ β) (h : (S x).node.isSome = true) :
    used n (setSlot S x s) ≤ used n S := by
  rw [used, used]
  apply Finset.card_le_card
  intro i hi
  obtain ⟨hn, hsome⟩ := Finset.mem_filter.mp hi
  rw [setSlot_apply] at hsome
  rw [Finset.mem_filter]
  split_ifs at hsome with hix
  · exact ⟨hn, hix ▸ h⟩
  · exact ⟨hn, hsome⟩

/-- Fewer nodes than slots leave a slot open. -/
theorem Packed.hasOpen (h : Packed n S) (hused : used n S < n) : HasOpen n S := by
  by_contra hno
  have hall : (Finset.range n).filter (fun i => (S i).node.isSome) = Finset.range n := by
    apply Finset.filter_true_of_mem
    intro i hi
    by_contra hnone
    have hnode : (S i).node = none := by simpa using hnone
    refine hno ⟨i, Finset.mem_range.mp hi, hnode, ?_⟩
    by_contra hdirty
    exact h i (Finset.mem_range.mp hi) (by simpa using hdirty) hnode
  rw [used, hall, Finset.card_range] at hused
  exact Nat.lt_irrefl n hused

end Ways

end TarantoolC.Probing
