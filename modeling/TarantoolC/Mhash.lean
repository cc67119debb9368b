/-
# TarantoolC.Mhash — the hash of the client (`third_party/mhash.h`).

An array of slots with double hashing, whose growth is spread over the calls that come after: `put`
starts a resize when the array is dirty enough, and every `put` and `del` from then on moves a batch
of slots into the shadow array, until the shadow takes the place of the array.

The functions are those of the header, for any nodes and hash function.  `mh_int_t` is `uint32_t`:
additions of slots are taken modulo `2 ^ 32`, which matters from `2 ^ 31` slots on.  A search that
goes round without an end is `none`; it cannot visit more than `n_buckets` slots otherwise.

What is proved: as long as nothing is deleted while a resize is pending, a hash of less than
`2 ^ 31` slots is searched correctly and has an open slot (`Mh.Good.put`, `mhFind_spec`).

How it is modelled.  One array is an `MhTable`: the slots (node and dirty mark, the arrays `p` and
`b` of the source), `n_buckets`, `n_dirty`, `size`, and the place in the list of primes; an `Mh` has
the array that is searched, the shadow, `resize_position` and `batch`.  `mh_new` makes the shadow as
an array of no slots.  Memory is refused by a parameter of `mhPut`, asked once with the number of
slots of the new array, as `mh_start_resize` asks once.

* `findFrom`, `skipFrom`, `duplicateFrom` — the three loops over a way, with as much fuel as there
  are slots; when it runs out, the loop of the source would go round for ever;
* `mhStore` — the end of `mh_put`, after the slot is known;
* `mhResize`, `mhStartResize`, `mhMakeRoom` — the resize, a batch at a time;
* `mhDel`, `mhDelResize` — deletion, which also does a batch.

The general part (ways, marks, what keeps an array searchable) is `TarantoolC.Probing`; here it is
instantiated with the arithmetic of the header.  That every number in the list of primes is a prime
is checked by division, for each by all numbers up to its root, in products (`acPrimeList_gcd`).

Deletions while a resize is pending are not in the invariant of this file; `TarantoolC.Mhash.Map`
has the one that covers them.
-/
import Mathlib.Data.Nat.Prime.Basic
import TarantoolC.Probing

namespace TarantoolC.Mhash

open Probing

/-! ## §1 — the code. -/

/-- `__ac_prime_list`. -/
def acPrimeList : List Nat :=
  [3, 11, 23, 53, 97, 193, 389, 769, 1543, 3079, 6151, 12289, 24593, 49157, 98317, 196613, 393241,
    786433, 1572869, 3145739, 6291469, 12582917, 25165843, 50331653, 100663319, 201326611, 402653189,
    805306457, 1610612741, 3221225473, 4294967291]

/-- `struct _mh(t)`, one array: the slots (`p` and `b`), and its numbers. -/
structure MhTable (κ β : Type) where
  nBuckets : Nat
  slots : Slots κ β
  nDirty : Nat
  size : Nat
  prime : Nat

/-- `struct _mh(t)`: an array, and the resize of it. -/
structure Mh (κ β : Type) where
  table : MhTable κ β
  resizePosition : Nat
  batch : Nat
  shadow : MhTable κ β

section Code

variable {κ β : Type} [DecidableEq κ] (hash : κ → Nat)

/-- `mh_next_slot`. -/
def mhNextSlot (slot inc size : Nat) : Nat :=
  let slot := (slot + inc) % 2 ^ 32
  if size ≤ slot then slot - size else slot

/-- `upper_bound`: `n_buckets * MH_DENSITY`. -/
def MhTable.upperBound (t : MhTable κ β) : Nat := 7 * t.nBuckets / 10

/-- `mh_eq_key`, where a node is. -/
def slotHas (s : Slot κ β) (k : κ) : Bool := s.node.any fun nd => nd.key = k

/-- The loop of `mh_find`. -/
def findFrom (n : Nat) (S : Slots κ β) (k : κ) (inc : Nat) : Nat → Nat → Option Nat
  | 0, _ => none
  | fuel + 1, i =>
    if slotHas (S i) k then some i
    else if (S i).dirty then findFrom n S k inc fuel (mhNextSlot i inc n)
    else some n

/-- `mh_find`, and `mh_get` with the key of a node: a slot, or `n_buckets`. -/
def mhFind (t : MhTable κ β) (k : κ) : Option Nat :=
  findFrom t.nBuckets t.slots k (1 + hash k % (t.nBuckets - 1)) t.nBuckets (hash k % t.nBuckets)

/-- The first loop of `put_slot`: it marks the slots it goes through, up to one with the key
(`true`) or without a node. -/
def skipFrom (n : Nat) (k : κ) (inc : Nat) : Nat → Nat → Slots κ β → Option (Bool × Nat × Slots κ β)
  | 0, _, _ => none
  | fuel + 1, i, S =>
    match (S i).node with
    | none => some (false, i, S)
    | some nd =>
      if nd.key = k then some (true, i, S)
      else skipFrom n k inc fuel (mhNextSlot i inc n) (setSlot S i ⟨some nd, true⟩)

/-- Its second loop: the key may be behind an empty slot that is dirty. -/
def duplicateFrom (n : Nat) (S : Slots κ β) (k : κ) (inc saveI : Nat) : Nat → Nat → Option Nat
  | 0, _ => none
  | fuel + 1, i =>
    if (S i).dirty then
      let i := mhNextSlot i inc n
      if slotHas (S i) k then some i else duplicateFrom n S k inc saveI fuel i
    else some saveI

/-- `put_slot`: the slot for a key, and the slots with the marks. -/
def mhPutSlot (n : Nat) (S : Slots κ β) (k : κ) : Option (Nat × Slots κ β) :=
  let inc := 1 + hash k % (n - 1)
  match skipFrom n k inc n (hash k % n) S with
  | none => none
  | some (true, i, S) => some (i, S)
  | some (false, i, S) => (duplicateFrom n S k inc i n i).map fun x => (x, S)

/-- The end of `mh_put`: the node gets its slot. -/
def mhStore (t : MhTable κ β) (nd : Node κ β) : Option (MhTable κ β) :=
  match mhPutSlot hash t.nBuckets t.slots nd.key with
  | none => none
  | some (x, S) =>
    let t' := { t with slots := setSlot S x ⟨some nd, (S x).dirty⟩ }
    if (S x).node.isSome then some t'
    else some { t' with
      size := t.size + 1
      nDirty := if (S x).dirty then t.nDirty else t.nDirty + 1 }

/-- A node that `mh_resize` moves into the shadow `s`. -/
def mhMove (s : MhTable κ β) (nd : Node κ β) : Option (MhTable κ β) :=
  match mhPutSlot hash s.nBuckets s.slots nd.key with
  | none => none
  | some (x, S) =>
    some { s with slots := setSlot S x ⟨some nd, (S x).dirty⟩, nDirty := s.nDirty + 1 }

/-- The loop of `mh_resize` at slot `i`, with `left` slots before the end of the array: where it
stops (nowhere if it comes to the end), and the shadow. -/
def moveFrom (t : MhTable κ β) : Nat → Nat → Nat → MhTable κ β → Option (Option Nat × MhTable κ β)
  | 0, _, _, s => some (none, s)
  | _ + 1, 0, i, s => some (some i, s)
  | left + 1, batch + 1, i, s =>
    match (t.slots i).node with
    | none => moveFrom t left batch (i + 1) s
    | some nd =>
      match mhMove hash s nd with
      | none => none
      | some s => moveFrom t left batch (i + 1) s

/-- `mh_resize`.  At the end of the array the shadow is copied over the hash; `resize_position` of
the shadow is 0. -/
def mhResize (h : Mh κ β) : Option (Mh κ β) :=
  match moveFrom hash h.table (h.table.nBuckets - h.resizePosition) h.batch h.resizePosition
      h.shadow with
  | none => none
  | some (some i, s) => some { h with resizePosition := i, shadow := s }
  | some (none, s) =>
    let s := { s with size := h.table.size }
    some { h with table := s, resizePosition := 0, shadow := s }

/-- The loop over the primes, from the place `p` on.  Behind the last one it would read on. -/
def primeFrom (buckets : Nat) : List Nat → Nat → Option (Nat × Nat)
  | [], _ => none
  | n :: ns, p => if buckets ≤ n then some (p, n) else primeFrom buckets ns (p + 1)

/-- `mh_start_resize(h, buckets, 0)` where no resize is pending and `buckets` is more than
`n_buckets`.  `alloc` says which sizes `tnt_mem_alloc` has a block of: `false` for the result -1. -/
def mhStartResize (alloc : Nat → Bool) (h : Mh κ β) (buckets : Nat) : Option (Bool × Mh κ β) :=
  match primeFrom buckets (acPrimeList.drop h.table.prime) h.table.prime with
  | none => none
  | some (p, n) =>
    let h := { h with
      table := { h.table with prime := p }
      batch := max 256 (h.table.nBuckets / (256 * 1024)) }
    if alloc (8 * n) && alloc (4 * (n / 16 + 1)) then
      (mhResize hash { h with shadow := ⟨n, noSlots, 0, h.table.size, p⟩ }).map fun h => (true, h)
    else some (false, h)

/-- `mh_put` into the shadow.  Its own `resize_position` is 0, and a shadow that is itself to be
resized would be copied over itself. -/
def mhPutShadow (s : MhTable κ β) (nd : Node κ β) : Option (MhTable κ β) :=
  if s.size = s.nBuckets then some s
  else if s.upperBound ≤ s.nDirty then none
  else mhStore hash s nd

/-- The part of `mh_put` before the node gets its slot: a resize goes on or starts.  `false` if it
goes to `put_done`. -/
def mhMakeRoom (alloc : Nat → Bool) (h : Mh κ β) : Option (Bool × Mh κ β) :=
  if 0 < h.resizePosition then (mhResize hash h).map fun h => (true, h)
  else if h.table.upperBound ≤ h.table.nDirty then
    mhStartResize hash alloc h (h.table.nBuckets + 1)
  else some (true, h)

/-- `mh_put`. -/
def mhPut (alloc : Nat → Bool) (h : Mh κ β) (nd : Node κ β) : Option (Mh κ β) :=
  if h.table.size = h.table.nBuckets then some h
  else
    match mhMakeRoom hash alloc h with
    | none => none
    | some (false, h) => some h
    | some (true, h) =>
      match if 0 < h.resizePosition then mhPutShadow hash h.shadow nd else some h.shadow,
        mhStore hash h.table nd with
      | some shadow, some table => some { h with table := table, shadow := shadow }
      | _, _ => none

/-- `mh_del` on an array that is not being resized. -/
def mhTableDel (t : MhTable κ β) (x : Nat) : MhTable κ β :=
  if x ≠ t.nBuckets ∧ (t.slots x).node.isSome then
    { t with
      slots := setSlot t.slots x ⟨none, (t.slots x).dirty⟩
      size := t.size - 1
      nDirty := if (t.slots x).dirty then t.nDirty else t.nDirty - 1 }
  else t

/-- `mh_del_resize`, for the node that was in the slot. -/
def mhDelResize (h : Mh κ β) (nd : Node κ β) : Option (Mh κ β) :=
  match mhFind hash h.shadow nd.key with
  | none => none
  | some y => mhResize hash { h with shadow := mhTableDel h.shadow y }

/-- `mh_del`. -/
def mhDel (h : Mh κ β) (x : Nat) : Option (Mh κ β) :=
  match (h.table.slots x).node with
  | none => some h
  | some nd =>
    if x = h.table.nBuckets then some h
    else
      let h := { h with table := mhTableDel h.table x }
      if 0 < h.resizePosition then mhDelResize hash h nd else some h

/-- The first slot with a node, of the `left` slots from `i` on, or the one behind them. -/
def existFrom (S : Slots κ β) : Nat → Nat → Nat
  | 0, i => i
  | left + 1, i =>
    match (S i).node with
    | some _ => i
    | none => existFrom S left (i + 1)

/-- `mh_first`. -/
def mhFirst (h : Mh κ β) : Nat := existFrom h.table.slots h.table.nBuckets 0

/-- `mh_next`. -/
def mhNext (h : Mh κ β) (i : Nat) : Nat :=
  if i < h.table.nBuckets then existFrom h.table.slots (h.table.nBuckets - (i + 1)) (i + 1) else i

/-- `mh_new`. -/
def mhNew : Mh κ β := ⟨⟨3, noSlots, 0, 0, 0⟩, 0, 0, ⟨0, noSlots, 0, 0, 0⟩⟩

end Code

/-! ## §2 — the primes.

The list of the header, by evaluation: its numbers are prime, and each is larger than the one before
it by enough for a resize to be worth it. -/

/-- The product of the `2 ^ k` numbers from `d` on, in halves. -/
def prodFrom : Nat → Nat → Nat
  | 0, d => d
  | k + 1, d => prodFrom k d * prodFrom k (d + 2 ^ k)

/-- Every number of the range divides the product. -/
theorem dvd_prodFrom {k d m : Nat} (hd : d ≤ m) (hm : m < d + 2 ^ k) : m ∣ prodFrom k d := by
  induction k generalizing d with
  | zero =>
    obtain rfl : m = d := by omega
    exact Nat.dvd_refl m
  | succ k ih =>
    rw [pow_succ] at hm
    by_cases hlt : m < d + 2 ^ k
    · exact (ih hd hlt).mul_right _
    · exact (ih (by omega) (by omega)).mul_left _

/-- A number that has nothing in common with those up to its root. -/
theorem prime_of_gcd {n : Nat} (k : Nat) (hn : 2 ≤ n) (hroot : n < (2 + 2 ^ k) * (2 + 2 ^ k))
    (h : Nat.gcd n (prodFrom k 2) = 1) : n.Prime := by
  rw [Nat.prime_def_le_sqrt]
  refine ⟨hn, fun m hm hsqrt hdvd => ?_⟩
  have hlt : m < 2 + 2 ^ k := Nat.lt_of_le_of_lt hsqrt (Nat.sqrt_lt.mpr hroot)
  have hone : m ∣ 1 := h ▸ Nat.dvd_gcd hdvd (dvd_prodFrom hm hlt)
  have := Nat.le_of_dvd Nat.one_pos hone
  omega

/-- Each number of the list has no divisor up to its root.  The products are as long as the number
needs. -/
theorem acPrimeList_gcd : ∀ n ∈ acPrimeList, ∃ k ∈ [0, 3, 5, 8, 16],
    2 ≤ n ∧ n < (2 + 2 ^ k) * (2 + 2 ^ k) ∧ Nat.gcd n (prodFrom k 2) = 1 := by
  decide +kernel

/-- **The list of primes has primes.** -/
theorem acPrimeList_prime {n : Nat} (h : n ∈ acPrimeList) : n.Prime := by
  obtain ⟨k, -, hn, hroot, hgcd⟩ := acPrimeList_gcd n h
  exact prime_of_gcd k hn hroot hgcd

/-- From one number of buckets to a greater one there is room for all slots that are moved, and for
what is put in between. -/
theorem acPrimeList_grows : ∀ n ∈ acPrimeList, ∀ n' ∈ acPrimeList, n < n' → n' < 2 ^ 31 →
    n + n / 256 + 1 ≤ 7 * n' / 10 := by
  decide +kernel

/-! ## §3 — one array.

The loops of the header are searches along a way of `TarantoolC.Probing`, and end because their
table has an open slot. -/

section Spec

variable {κ β : Type} [DecidableEq κ] {hash : κ → Nat}

/-- The next slot of the code is the next slot of the way, below `2 ^ 31` slots: the sum of slot and
stride stays below `2 ^ 32`. -/
theorem mhNextSlot_probe {n : Nat} (hn : 1 < n) (hbig : n < 2 ^ 31) (h j : Nat) :
    mhNextSlot (probe n h j) (1 + h % (n - 1)) n = probe n h (j + 1) := by
  have hslot := probe_lt (by omega : 0 < n) h j
  have hinc := stride_lt hn h
  rw [probe_succ]
  generalize 1 + h % (n - 1) = inc at hinc ⊢
  generalize probe n h j = slot at hslot ⊢
  have hwrap : (slot + inc) % 2 ^ 32 = slot + inc := Nat.mod_eq_of_lt (by omega)
  rw [mhNextSlot, hwrap]
  split_ifs with hge
  · rw [Nat.mod_eq_sub_mod hge, Nat.mod_eq_of_lt (by omega)]
  · rw [Nat.mod_eq_of_lt (by omega)]

/-- The test of the code, as a property. -/
theorem slotHas_iff {S : Slots κ β} {i : Nat} {k : κ} :
    slotHas (S i) k = true ↔ Holds S i k := by
  rw [slotHas, Holds, Option.any_eq_true]
  simp only [decide_eq_true_eq]

section Search

variable {n : Nat} {S : Slots κ β} {k : κ}

/-- The search for a key, from a place its way comes to. -/
theorem findFrom_spec (hn : n.Prime) (hbig : n < 2 ^ 31) (hsound : Sound hash n S)
    (hopen : HasOpen n S) {fuel j : Nat} (hfuel : n ≤ fuel + j) (hcame : Came hash n S k j) :
    ∃ x, findFrom n S k (1 + hash k % (n - 1)) fuel (probe n (hash k) j) = some x ∧
      ((x < n ∧ Holds S x k) ∨ (x = n ∧ ∀ i < n, ¬ Holds S i k)) := by
  induction fuel generalizing j with
  | zero =>
    have := hcame.lt hn hopen
    omega
  | succ fuel ih =>
    rw [findFrom]
    by_cases hhas : slotHas (S (probe n (hash k) j)) k = true
    · rw [if_pos hhas]
      exact ⟨_, rfl, .inl ⟨probe_lt hn.pos _ _, slotHas_iff.mp hhas⟩⟩
    have hno : ¬ Holds S (probe n (hash k) j) k := fun h => hhas (slotHas_iff.mpr h)
    rw [if_neg hhas]
    by_cases hdirty : (S (probe n (hash k) j)).dirty = true
    · rw [if_pos hdirty, mhNextSlot_probe hn.one_lt hbig]
      exact ih (by omega) (hcame.succ hdirty hno)
    · rw [if_neg hdirty]
      have hclean : (S (probe n (hash k) j)).dirty = false := by simpa using hdirty
      exact ⟨n, rfl, .inr ⟨rfl, fun i hi => hsound.absent hcame hno hclean hi⟩⟩

/-- Where `put_slot` puts a key, with the slots as it leaves them. -/
structure PutAt (hash : κ → Nat) (n : Nat) (S : Slots κ β) (k : κ) (x : Nat) (S' : Slots κ β) :
    Prop where
  lt : x < n
  sound : Sound hash n S'
  packed : Packed n S'
  node : ∀ i, (S' i).node = (S i).node
  spot : Holds S' x k ∨
    (∃ j, probe n (hash k) j = x ∧ Came hash n S' k j) ∧ ∀ i < n, ¬ Holds S' i k

/-- **The first loop of `put_slot`**: from a slot that a way has come to, it leaves an array that is
searched correctly, with the same nodes. -/
theorem skipFrom_spec (hn : n.Prime) (hbig : n < 2 ^ 31) {fuel j x : Nat} {found : Bool}
    {S' : Slots κ β} (hsound : Sound hash n S) (hpacked : Packed n S) (hcame : Came hash n S k j)
    (h : skipFrom n k (1 + hash k % (n - 1)) fuel (probe n (hash k) j) S = some (found, x, S')) :
    x < n ∧ Sound hash n S' ∧ Packed n S' ∧ (∀ i, (S' i).node = (S i).node) ∧
      (found = true → Holds S' x k) ∧
      (found = false → (S' x).node = none ∧ ∃ j, probe n (hash k) j = x ∧ Came hash n S' k j) := by
  induction fuel generalizing j S with
  | zero => exact absurd h (by simp [skipFrom])
  | succ fuel ih =>
    rw [skipFrom] at h
    split at h
    · next hnone =>
      obtain ⟨rfl, rfl, rfl⟩ : false = found ∧ _ = x ∧ S = S' := by simpa using h
      exact ⟨probe_lt hn.pos _ _, hsound, hpacked, fun _ => rfl, fun h => absurd h (by simp),
        fun _ => ⟨hnone, j, rfl, hcame⟩⟩
    · next nd hnd =>
      split_ifs at h with hkey
      · obtain ⟨rfl, rfl, rfl⟩ : true = found ∧ _ = x ∧ S = S' := by simpa using h
        exact ⟨probe_lt hn.pos _ _, hsound, hpacked, fun _ => rfl, fun _ => ⟨nd, hnd, hkey⟩,
          fun h => absurd h (by simp)⟩
      -- one slot further, behind a mark
      · rw [mhNextSlot_probe hn.one_lt hbig, ← hnd] at h
        have hcame' : Came hash n
            (setSlot S (probe n (hash k) j) ⟨(S (probe n (hash k) j)).node, true⟩) k (j + 1) := by
          apply Came.succ hcame.mark
          · rw [setSlot_self]
          · rintro ⟨nd', hnd', hk⟩
            rw [mark_node, hnd] at hnd'
            exact hkey (Option.some.inj hnd' ▸ hk)
        have hmarked := hpacked.mark (x := probe n (hash k) j) (by simp [hnd])
        obtain ⟨hx, hs, hp, hnode, hspot⟩ := ih hsound.mark hmarked hcame' h
        exact ⟨hx, hs, hp, fun i => (hnode i).trans (mark_node S _ i), hspot⟩

/-- **`put_slot`**, on an array nothing was taken out of. -/
theorem mhPutSlot_spec (hn : n.Prime) (hbig : n < 2 ^ 31) (hsound : Sound hash n S)
    (hpacked : Packed n S) {x : Nat} {S' : Slots κ β}
    (h : mhPutSlot hash n S k = some (x, S')) : PutAt hash n S k x S' := by
  have hhome := probe_zero n (hash k)
  rw [mhPutSlot, ← hhome] at h
  split at h
  · exact absurd h (by simp)
  · next i S₁ hskip =>
    obtain ⟨hx, hs, hp, hnode, hfound, -⟩ := skipFrom_spec hn hbig hsound hpacked came_zero hskip
    obtain ⟨rfl, rfl⟩ := Prod.mk.inj (Option.some.inj h)
    exact ⟨hx, hs, hp, hnode, .inl (hfound rfl)⟩
  · next i S₁ hskip =>
    obtain ⟨hx, hs, hp, hnode, -, hfree⟩ := skipFrom_spec hn hbig hsound hpacked came_zero hskip
    obtain ⟨hnone, j, rfl, hcame⟩ := hfree rfl
    -- nothing has been taken out, so the empty slot is clean, and there is nothing behind it
    have hclean : (S₁ (probe n (hash k) j)).dirty = false := by
      by_contra hdirty
      exact hp _ hx (by simpa using hdirty) hnone
    have hdup (fuel : Nat) : duplicateFrom n S₁ k (1 + hash k % (n - 1)) (probe n (hash k) j)
        (fuel + 1) (probe n (hash k) j) = some (probe n (hash k) j) := by
      rw [duplicateFrom, hclean]
      rfl
    obtain ⟨fuel, rfl⟩ : ∃ fuel, n = fuel + 1 := ⟨n - 1, by have := hn.pos; omega⟩
    rw [hdup] at h
    obtain ⟨rfl, rfl⟩ := Prod.mk.inj (Option.some.inj h)
    have hno : ¬ Holds S₁ (probe (fuel + 1) (hash k) j) k := by
      rintro ⟨nd, hnd, -⟩
      exact absurd (hnone.symm.trans hnd) (by simp)
    exact ⟨hx, hs, hp, hnode, .inr ⟨⟨j, rfl, hcame⟩, fun i hi => hs.absent hcame hno hclean hi⟩⟩

end Search

/-- **`mh_find`** on an array that is searched correctly: it ends, at the key or with
`n_buckets`. -/
theorem mhFind_spec {t : MhTable κ β} (hn : t.nBuckets.Prime) (hbig : t.nBuckets < 2 ^ 31)
    (hsound : Sound hash t.nBuckets t.slots) (hopen : HasOpen t.nBuckets t.slots) (k : κ) :
    ∃ x, mhFind hash t k = some x ∧ ((x < t.nBuckets ∧ Holds t.slots x k) ∨
      (x = t.nBuckets ∧ ∀ i < t.nBuckets, ¬ Holds t.slots i k)) := by
  have hfind := findFrom_spec (k := k) hn hbig hsound hopen (Nat.le_refl _) came_zero
  rw [probe_zero] at hfind
  exact hfind

/-- All nodes of an array have a property. -/
def MhTable.All (P : Node κ β → Prop) (t : MhTable κ β) : Prop :=
  ∀ i < t.nBuckets, ∀ nd, (t.slots i).node = some nd → P nd

/-- An array into which nodes have been put, and none taken out of. -/
structure MhTable.Good (hash : κ → Nat) (P : Node κ β → Prop) (t : MhTable κ β) : Prop where
  buckets : t.nBuckets ∈ acPrimeList
  sound : Sound hash t.nBuckets t.slots
  packed : Packed t.nBuckets t.slots
  used_le : used t.nBuckets t.slots ≤ t.nDirty
  all : t.All P

section Put

variable {P : Node κ β → Prop} {t t' : MhTable κ β} {nd : Node κ β}

omit [DecidableEq κ] in
/-- What becomes of the nodes once the slot of `put_slot` has one. -/
theorem PutAt.all {n x : Nat} {S S' : Slots κ β} {k : κ} (h : PutAt hash n S k x S')
    (hall : ∀ i < n, ∀ nd, (S i).node = some nd → P nd) (hP : P nd) {i : Nat} (hi : i < n)
    {nd' : Node κ β} (hnd : (setSlot S' x ⟨some nd, (S' x).dirty⟩ i).node = some nd') : P nd' := by
  rw [setSlot_apply] at hnd
  split_ifs at hnd
  · exact Option.some.inj hnd ▸ hP
  · rw [h.node] at hnd
    exact hall i hi nd' hnd

omit [DecidableEq κ] in
/-- Marks are no nodes. -/
theorem PutAt.used_eq {n x : Nat} {S S' : Slots κ β} {k : κ} (h : PutAt hash n S k x S') :
    used n S' = used n S := used_congr fun i _ => h.node i

/-- The end of `mh_put`. -/
theorem MhTable.Good.store (h : t.Good hash P) (hbig : t.nBuckets < 2 ^ 31) (hP : P nd)
    (hput : mhStore hash t nd = some t') :
    t'.Good hash P ∧ t'.nBuckets = t.nBuckets ∧ t'.nDirty ≤ t.nDirty + 1 := by
  rw [mhStore] at hput
  split at hput
  · exact absurd hput (by simp)
  · next x S hslot =>
    have hat := mhPutSlot_spec (acPrimeList_prime h.buckets) hbig h.sound h.packed hslot
    have hsound := hat.sound.fill hat.lt hat.spot
    have hpacked := hat.packed.fill (x := x) nd
    have hall : ∀ i < t.nBuckets, ∀ nd', (setSlot S x ⟨some nd, (S x).dirty⟩ i).node = some nd' →
        P nd' := fun i hi nd' hnd' => hat.all h.all hP hi hnd'
    have hused := hat.used_eq
    have hle := h.used_le
    split_ifs at hput with hsome hdirty
    · obtain rfl := Option.some.inj hput
      have hsame := used_setSlot_of_some (n := t.nBuckets) ⟨some nd, (S x).dirty⟩ hsome
      exact ⟨⟨h.buckets, hsound, hpacked, by simp only; omega, hall⟩, rfl, by simp⟩
    -- an empty slot is clean
    · exact absurd (Option.isSome_iff_ne_none.mpr (hat.packed x hat.lt hdirty)) hsome
    · obtain rfl := Option.some.inj hput
      have hmore := used_setSlot_le (n := t.nBuckets) (S := S) (x := x) ⟨some nd, (S x).dirty⟩
      exact ⟨⟨h.buckets, hsound, hpacked, by simp only; omega, hall⟩, rfl, Nat.le_refl _⟩

/-- A node that is moved. -/
theorem MhTable.Good.move (h : t.Good hash P) (hbig : t.nBuckets < 2 ^ 31) (hP : P nd)
    (hmove : mhMove hash t nd = some t') :
    t'.Good hash P ∧ t'.nBuckets = t.nBuckets ∧ t'.nDirty = t.nDirty + 1 := by
  rw [mhMove] at hmove
  split at hmove
  · exact absurd hmove (by simp)
  · next x S hslot =>
    obtain rfl := Option.some.inj hmove
    have hat := mhPutSlot_spec (acPrimeList_prime h.buckets) hbig h.sound h.packed hslot
    have hused := hat.used_eq
    have hle := h.used_le
    have hmore := used_setSlot_le (n := t.nBuckets) (S := S) (x := x) ⟨some nd, (S x).dirty⟩
    refine ⟨⟨h.buckets, hat.sound.fill hat.lt hat.spot, hat.packed.fill nd, ?_, ?_⟩, rfl, rfl⟩
    · simp only
      omega
    · exact fun i hi nd' hnd' => hat.all h.all hP hi hnd'

/-- The shadow keeps its length, and the loop stops after a batch if at all. -/
theorem moveFrom_stop {left batch i : Nat} {s s' : MhTable κ β} {r : Option Nat}
    (h : moveFrom hash t left batch i s = some (r, s')) :
    s'.nBuckets = s.nBuckets ∧ ∀ i', r = some i' → i' = i + batch := by
  induction left generalizing batch i s with
  | zero =>
    obtain ⟨rfl, rfl⟩ := Prod.mk.inj (Option.some.inj h)
    exact ⟨rfl, fun i' h => absurd h (by simp)⟩
  | succ left ih =>
    -- the walk stops early only when the batch is used up, and then says where
    cases batch with
    | zero =>
      obtain ⟨rfl, rfl⟩ := Prod.mk.inj (Option.some.inj h)
      exact ⟨rfl, fun i' h => (Option.some.inj h).symm⟩
    | succ batch =>
      rw [moveFrom] at h
      split at h
      · obtain ⟨hn, hstop⟩ := ih h
        exact ⟨hn, fun i' hi => by rw [hstop i' hi]; omega⟩
      · split at h
        · exact absurd h (by simp)
        · next s₁ hmove =>
          obtain ⟨hn, hstop⟩ := ih h
          refine ⟨?_, fun i' hi => by rw [hstop i' hi]; omega⟩
          rw [hn]
          rw [mhMove] at hmove
          split at hmove
          · exact absurd hmove (by simp)
          · rw [← Option.some.inj hmove]

/-- Where the loop of `mh_resize` stops, and how many slots of the shadow it fills. -/
theorem moveFrom_spec {left batch i : Nat} {s s' : MhTable κ β} {r : Option Nat} (hall : t.All P)
    (hend : i + left = t.nBuckets) (hs : s.Good hash P) (hbig : s.nBuckets < 2 ^ 31)
    (h : moveFrom hash t left batch i s = some (r, s')) :
    s'.Good hash P ∧ ((r = none ∧ left ≤ batch ∧ s'.nDirty ≤ s.nDirty + left) ∨
      (r = some (i + batch) ∧ batch < left ∧ s'.nDirty ≤ s.nDirty + batch)) := by
  induction left generalizing batch i s with
  | zero =>
    obtain ⟨rfl, rfl⟩ := Prod.mk.inj (Option.some.inj h)
    exact ⟨hs, .inl ⟨rfl, Nat.zero_le _, Nat.le_refl _⟩⟩
  | succ left ih =>
    cases batch with
    | zero =>
      obtain ⟨rfl, rfl⟩ := Prod.mk.inj (Option.some.inj h)
      exact ⟨hs, .inr ⟨rfl, Nat.succ_pos _, Nat.le_refl _⟩⟩
    | succ batch =>
      rw [moveFrom] at h
      -- one slot, with or without a node, and the rest
      have hrest {s₁ : MhTable κ β} (hs₁ : s₁.Good hash P) (hn : s₁.nBuckets = s.nBuckets)
          (hdirty : s₁.nDirty ≤ s.nDirty + 1)
          (h : moveFrom hash t left batch (i + 1) s₁ = some (r, s')) :
          s'.Good hash P ∧ ((r = none ∧ left + 1 ≤ batch + 1 ∧ s'.nDirty ≤ s.nDirty + (left + 1)) ∨
            (r = some (i + (batch + 1)) ∧ batch + 1 < left + 1 ∧
              s'.nDirty ≤ s.nDirty + (batch + 1))) := by
        obtain ⟨hgood, hwhere⟩ := ih (by omega) hs₁ (hn ▸ hbig) h
        refine ⟨hgood, ?_⟩
        rcases hwhere with ⟨rfl, hle, hd⟩ | ⟨rfl, hlt, hd⟩
        · exact .inl ⟨rfl, by omega, by omega⟩
        · exact .inr ⟨by rw [Nat.add_right_comm, Nat.add_assoc], by omega, by omega⟩
      split at h
      · exact hrest hs rfl (Nat.le_succ _) h
      · next nd hnd =>
        split at h
        · exact absurd h (by simp)
        · next s₁ hmove =>
          obtain ⟨hgood, hn, hdirty⟩ := hs.move hbig (hall i (by omega) nd hnd) hmove
          exact hrest hgood hn (Nat.le_of_eq hdirty) h

end Put

/-! ## §4 — the hash, and its resize.

Two arrays, one of which is being filled.  Both are searched correctly at any time; the second has
all nodes of the first below the position of the resize. -/

/-- How many slots there are once the resize that is pending is done. -/
def Mh.capacity (h : Mh κ β) : Nat :=
  if 0 < h.resizePosition then h.shadow.nBuckets else h.table.nBuckets

/-- A hash that nodes have only been put into.  Each `put` of a resize moves at least 256 slots, so
that the array gets as many nodes more than its bound as batches have been moved; `room` is for
nodes to come. -/
structure Mh.Good (hash : κ → Nat) (P : Node κ β → Prop) (room : Nat) (h : Mh κ β) : Prop where
  table : h.table.Good hash P
  before : h.resizePosition < h.table.nBuckets
  bound : h.table.nDirty + room ≤ h.table.upperBound + h.resizePosition / 256
  pending : 0 < h.resizePosition → h.shadow.Good hash P ∧ h.table.nBuckets < h.shadow.nBuckets ∧
    h.shadow.nDirty + room ≤ h.resizePosition + h.resizePosition / 256 ∧ 256 ≤ h.batch

section Resize

variable {P : Node κ β → Prop} {h h' : Mh κ β} {nd : Node κ β} {alloc : Nat → Bool}

/-- Storing a node changes no length, ... -/
theorem mhStore_nBuckets {t t' : MhTable κ β} (hput : mhStore hash t nd = some t') :
    t'.nBuckets = t.nBuckets := by
  rw [mhStore] at hput
  split at hput
  · exact absurd hput (by simp)
  · split_ifs at hput <;> rw [← Option.some.inj hput]

/-- ... nor does storing it in the shadow. -/
theorem mhPutShadow_nBuckets {t t' : MhTable κ β} (hput : mhPutShadow hash t nd = some t') :
    t'.nBuckets = t.nBuckets := by
  rw [mhPutShadow] at hput
  split_ifs at hput
  · rw [Option.some.inj hput]
  · exact mhStore_nBuckets hput

/-- A batch leaves the capacity what it is: at the end the shadow takes the place of the array. -/
theorem mhResize_capacity (hstep : 0 < h.resizePosition + h.batch)
    (hres : mhResize hash h = some h') : h'.capacity = h.shadow.nBuckets := by
  rw [mhResize] at hres
  split at hres
  · exact absurd hres (by simp)
  · next i s hmove =>
    obtain ⟨hn, hstop⟩ := moveFrom_stop hmove
    obtain rfl := Option.some.inj hres
    have hpos : 0 < i := by rw [hstop i rfl]; exact hstep
    rw [Mh.capacity, if_pos hpos, hn]
  · next s hmove =>
    obtain rfl := Option.some.inj hres
    exact (moveFrom_stop hmove).1

/-- A batch makes room for one node. -/
theorem mhResize_good (htable : h.table.Good hash P) (hshadow : h.shadow.Good hash P)
    (hgrows : h.table.nBuckets < h.shadow.nBuckets) (hbig : h.shadow.nBuckets < 2 ^ 31)
    (hbefore : h.resizePosition < h.table.nBuckets)
    (hbound : h.table.nDirty ≤ h.table.upperBound + h.resizePosition / 256)
    (hdirty : h.shadow.nDirty ≤ h.resizePosition + h.resizePosition / 256) (hbatch : 256 ≤ h.batch)
    (hres : mhResize hash h = some h') : h'.Good hash P 1 := by
  rw [mhResize] at hres
  split at hres
  · exact absurd hres (by simp)
  · next i s hmove =>
    have hn := (moveFrom_stop hmove).1
    obtain ⟨hs, ⟨hr, -⟩ | ⟨hr, hlt, hsd⟩⟩ :=
      moveFrom_spec htable.all (by omega) hshadow hbig hmove
    · exact absurd hr (by simp)
    obtain rfl := Option.some.inj hr
    obtain rfl := Option.some.inj hres
    refine ⟨htable, by simp only; omega, by simp only; omega, fun _ => ⟨hs, ?_, ?_, hbatch⟩⟩
    · rw [hn]
      exact hgrows
    · simp only
      omega
  · next s hmove =>
    have hn := (moveFrom_stop hmove).1
    obtain ⟨hs, ⟨-, -, hsd⟩ | ⟨hr, -⟩⟩ :=
      moveFrom_spec htable.all (by omega) hshadow hbig hmove
    swap
    · exact absurd hr (by simp)
    obtain rfl := Option.some.inj hres
    -- the new array has room for all slots of the old one, and for what was put in meanwhile
    have hroom := acPrimeList_grows _ htable.buckets _ hshadow.buckets hgrows hbig
    have hpos := (acPrimeList_prime hshadow.buckets).pos
    refine ⟨⟨hs.buckets, hs.sound, hs.packed, hs.used_le, hs.all⟩, ?_, ?_, ?_⟩
    · simp only [hn]
      exact hpos
    · simp only [MhTable.upperBound, hn]
      omega
    · exact fun h => absurd h (Nat.lt_irrefl 0)

/-- The loop over the primes ends at one that is no less than what was asked for. -/
theorem primeFrom_spec {buckets p p' n : Nat} {ns : List Nat}
    (hprime : primeFrom buckets ns p = some (p', n)) : n ∈ ns ∧ buckets ≤ n := by
  induction ns generalizing p with
  | nil => exact absurd hprime (by simp [primeFrom])
  | cons m ns ih =>
    rw [primeFrom] at hprime
    split_ifs at hprime with hle
    · obtain ⟨-, rfl⟩ := Prod.mk.inj (Option.some.inj hprime)
      exact ⟨List.mem_cons_self, hle⟩
    · obtain ⟨hmem, hn⟩ := ih hprime
      exact ⟨List.mem_cons_of_mem m hmem, hn⟩

omit [DecidableEq κ] in
/-- An array without nodes, of a length in the list. -/
theorem good_noSlots {n : Nat} (hn : n ∈ acPrimeList) (size prime : Nat) :
    (⟨n, noSlots, 0, size, prime⟩ : MhTable κ β).Good hash P where
  buckets := hn
  sound := sound_noSlots
  packed := packed_noSlots
  used_le := Nat.le_of_eq used_noSlots
  all i _ nd hnd := absurd hnd (by simp [noSlots])

omit [DecidableEq κ] in
/-- A new hash is good. -/
theorem mhNew_good : (mhNew : Mh κ β).Good hash P 0 where
  table := good_noSlots (by decide) 0 0
  before := Nat.succ_pos 2
  bound := Nat.zero_le _
  pending h := absurd h (Nat.lt_irrefl 0)

omit [DecidableEq κ] in
/-- A property of all nodes may be weakened. -/
theorem MhTable.Good.imp {Q : Node κ β → Prop} {t : MhTable κ β} (ht : t.Good hash P)
    (hPQ : ∀ nd, P nd → Q nd) : t.Good hash Q :=
  ⟨ht.buckets, ht.sound, ht.packed, ht.used_le, fun i hi nd hnd => hPQ nd (ht.all i hi nd hnd)⟩

omit [DecidableEq κ] in
/-- A weaker property of the nodes. -/
theorem Mh.Good.imp {Q : Node κ β → Prop} {room : Nat} (hg : h.Good hash P room)
    (hPQ : ∀ nd, P nd → Q nd) : h.Good hash Q room where
  table := hg.table.imp hPQ
  before := hg.before
  bound := hg.bound
  pending hpos := by
    obtain ⟨hshadow, hrest⟩ := hg.pending hpos
    exact ⟨hshadow.imp hPQ, hrest⟩

/-- Two facts of a call: there are no fewer slots, and if they are not too many the hash is good. -/
def Mh.Leads (hash : κ → Nat) (P : Node κ β → Prop) (room : Nat) (h h' : Mh κ β) : Prop :=
  h.capacity ≤ h'.capacity ∧ (h'.capacity < 2 ^ 31 → h'.Good hash P room)

omit [DecidableEq κ] in
/-- `table` and `shadow` are no larger than the capacity. -/
theorem Mh.Good.le_capacity {room : Nat} (hg : h.Good hash P room) :
    h.table.nBuckets ≤ h.capacity ∧ (0 < h.resizePosition → h.shadow.nBuckets = h.capacity) := by
  rw [Mh.capacity]
  split_ifs with hpos
  · exact ⟨Nat.le_of_lt (hg.pending hpos).2.1, fun _ => rfl⟩
  · exact ⟨Nat.le_refl _, fun h => absurd h hpos⟩

/-- `mh_start_resize`: with memory there is room for one more node. -/
theorem mhStartResize_leads (hpos : h.resizePosition = 0)
    (hg : h.capacity < 2 ^ 31 → h.Good hash P 0) {goOn : Bool}
    (hstart : mhStartResize hash alloc h (h.table.nBuckets + 1) = some (goOn, h')) :
    h.Leads hash P (if goOn then 1 else 0) h' := by
  have hcap : h.capacity = h.table.nBuckets := if_neg (by omega)
  rw [mhStartResize] at hstart
  split at hstart
  · exact absurd hstart (by simp)
  · next p n hprime =>
    obtain ⟨hmem, hn⟩ := primeFrom_spec hprime
    have hlist : n ∈ acPrimeList := List.mem_of_mem_drop hmem
    split_ifs at hstart
    · obtain ⟨h₁, hres, heq⟩ := Option.map_eq_some_iff.mp hstart
      obtain ⟨rfl, rfl⟩ := Prod.mk.inj heq
      have hbatch : 256 ≤ max 256 (h.table.nBuckets / (256 * 1024)) := Nat.le_max_left _ _
      have hcap₁ : h₁.capacity = n := mhResize_capacity (by simp only; omega) hres
      refine ⟨by omega, fun hbig => ?_⟩
      have hgood := hg (by omega)
      have htable : ({ h.table with prime := p } : MhTable κ β).Good hash P :=
        ⟨hgood.table.buckets, hgood.table.sound, hgood.table.packed, hgood.table.used_le,
          hgood.table.all⟩
      have hshadow : (⟨n, noSlots, 0, h.table.size, p⟩ : MhTable κ β).Good hash P :=
        good_noSlots hlist _ _
      have hsmall : n < 2 ^ 31 := by omega
      exact mhResize_good (h := { h with
          table := { h.table with prime := p }
          batch := max 256 (h.table.nBuckets / (256 * 1024))
          shadow := ⟨n, noSlots, 0, h.table.size, p⟩ })
        htable hshadow hn hsmall hgood.before hgood.bound (Nat.zero_le _) hbatch hres
    -- without memory only `prime` and `batch` are set
    · obtain ⟨rfl, rfl⟩ := Prod.mk.inj (Option.some.inj hstart)
      refine ⟨Nat.le_refl _, fun hbig => ?_⟩
      have hgood := hg hbig
      refine ⟨⟨hgood.table.buckets, hgood.table.sound, hgood.table.packed, hgood.table.used_le,
        hgood.table.all⟩, hgood.before, hgood.bound, ?_⟩
      exact fun h => absurd (hpos ▸ h) (Nat.lt_irrefl 0)

/-- **Making room**: a batch of a pending resize, or the start of one, leaves room for a node.  No
node goes or comes. -/
theorem mhMakeRoom_leads (hg : h.capacity < 2 ^ 31 → h.Good hash P 0) {goOn : Bool}
    (hroom : mhMakeRoom hash alloc h = some (goOn, h')) :
    h.Leads hash P (if goOn then 1 else 0) h' := by
  rw [mhMakeRoom] at hroom
  split_ifs at hroom with hpos hfull
  · obtain ⟨h₁, hres, heq⟩ := Option.map_eq_some_iff.mp hroom
    obtain ⟨rfl, rfl⟩ := Prod.mk.inj heq
    have hcap : h.capacity = h.shadow.nBuckets := if_pos hpos
    have hcap₁ : h₁.capacity = h.shadow.nBuckets := mhResize_capacity (by omega) hres
    refine ⟨by omega, fun hbig => ?_⟩
    have hgood := hg (by omega)
    obtain ⟨hshadow, hgrows, hdirty, hbatch⟩ := hgood.pending hpos
    exact mhResize_good hgood.table hshadow hgrows (by omega) hgood.before hgood.bound hdirty hbatch
      hres
  · exact mhStartResize_leads (by omega) hg hroom
  · obtain ⟨rfl, rfl⟩ := Prod.mk.inj (Option.some.inj hroom)
    refine ⟨Nat.le_refl _, fun hbig => ?_⟩
    have hgood := hg hbig
    refine ⟨hgood.table, hgood.before, ?_, fun h => absurd h hpos⟩
    have := hgood.before
    simp only [if_true]
    omega

/-- **`mh_put` keeps the hash good.** -/
theorem mhPut_leads (hg : h.capacity < 2 ^ 31 → h.Good hash P 0) (hP : P nd)
    (hput : mhPut hash alloc h nd = some h') : h.Leads hash P 0 h' := by
  rw [mhPut] at hput
  split_ifs at hput
  · -- the table is full, and nothing is put
    obtain rfl := Option.some.inj hput
    exact ⟨Nat.le_refl _, hg⟩
  split at hput
  · exact absurd hput (by simp)
  · next h₁ hroom =>
    obtain rfl := Option.some.inj hput
    exact mhMakeRoom_leads hg hroom
  · next h₁ hroom =>
    -- a new node, in the table and, while a resize is pending, in its shadow
    obtain ⟨hcap, hgood⟩ := mhMakeRoom_leads hg hroom
    split at hput
    swap
    · exact absurd hput (by simp)
    next s t hs ht =>
    obtain rfl := Option.some.inj hput
    have htn := mhStore_nBuckets ht
    have hsn : s.nBuckets = h₁.shadow.nBuckets := by
      split_ifs at hs
      · exact mhPutShadow_nBuckets hs
      · rw [Option.some.inj hs]
    have hcap' : ({ h₁ with table := t, shadow := s } : Mh κ β).capacity = h₁.capacity := by
      rw [Mh.capacity, Mh.capacity, htn, hsn]
    refine ⟨by omega, fun hbig => ?_⟩
    have hg₁ := hgood (by omega)
    have hle := hg₁.le_capacity
    obtain ⟨htable, -, htd⟩ := hg₁.table.store (by omega) hP ht
    have hbound := hg₁.bound
    simp only [if_true] at hbound
    refine ⟨htable, ?_, ?_, fun hpos => ?_⟩
    · rw [htn]
      exact hg₁.before
    · simp only [MhTable.upperBound, htn] at hbound ⊢
      omega
    · obtain ⟨hshadow, hgrows, hdirty, hbatch⟩ := hg₁.pending hpos
      simp only [if_true] at hdirty
      rw [if_pos hpos, mhPutShadow] at hs
      split_ifs at hs
      · obtain rfl := Option.some.inj hs
        refine ⟨hshadow, ?_, ?_, hbatch⟩
        · rw [htn]
          exact hgrows
        · simp only
          omega
      · -- the node is stored in the shadow too: it uses a slot more there
        obtain ⟨hgs, -, hsd⟩ := hshadow.store (by omega) hP hs
        refine ⟨hgs, ?_, ?_, hbatch⟩
        · rw [htn, hsn]
          exact hgrows
        · simp only
          omega

end Resize

/-! ## §5 — searching and deleting while no resize is pending.

A deletion empties a slot and leaves its mark, so that no way is interrupted. -/

/-- An array that is searched correctly. -/
structure MhTable.Settled (hash : κ → Nat) (t : MhTable κ β) : Prop where
  prime : t.nBuckets.Prime
  small : t.nBuckets < 2 ^ 31
  sound : Sound hash t.nBuckets t.slots
  hasOpen : HasOpen t.nBuckets t.slots

section Delete

variable {t : MhTable κ β} {h : Mh κ β}

omit [DecidableEq κ] in
/-- **A hash that nodes have only been put into is searched correctly.**  At any time, also with a
resize pending. -/
theorem Mh.Good.settled {P : Node κ β → Prop} {room : Nat} (hg : h.Good hash P room)
    (hpos : h.resizePosition = 0) (hsmall : h.table.nBuckets < 2 ^ 31) : h.table.Settled hash where
  prime := acPrimeList_prime hg.table.buckets
  small := hsmall
  sound := hg.table.sound
  hasOpen := by
    apply hg.table.packed.hasOpen
    have hused := hg.table.used_le
    have hbound := hg.bound
    have hbefore := hg.before
    rw [hpos] at hbound hbefore
    rw [MhTable.upperBound] at hbound
    omega

/-- A search ends and misses nothing. -/
theorem MhTable.Settled.find (ht : t.Settled hash) (k : κ) :
    ∃ x, mhFind hash t k = some x ∧ ((x < t.nBuckets ∧ Holds t.slots x k) ∨
      (x = t.nBuckets ∧ ∀ i < t.nBuckets, ¬ Holds t.slots i k)) :=
  mhFind_spec ht.prime ht.small ht.sound ht.hasOpen k

omit [DecidableEq κ] in
/-- A deletion changes no length, ... -/
@[simp] theorem mhTableDel_nBuckets (t : MhTable κ β) (x : Nat) :
    (mhTableDel t x).nBuckets = t.nBuckets := by
  rw [mhTableDel]
  split_ifs <;> rfl

omit [DecidableEq κ] in
/-- The node of the slot goes, all others stay. -/
theorem mhTableDel_node {x : Nat} (hx : x < t.nBuckets) (i : Nat) :
    ((mhTableDel t x).slots i).node = if i = x then none else (t.slots i).node := by
  by_cases hsome : (t.slots x).node.isSome = true
  · rw [mhTableDel, if_pos ⟨Nat.ne_of_lt hx, hsome⟩]
    simp only [setSlot_apply]
    split_ifs <;> rfl
  · have hnone : (t.slots x).node = none := by simpa using hsome
    rw [mhTableDel, if_neg fun h => hsome h.2]
    split_ifs with hix
    · rw [hix, hnone]
    · rfl

omit [DecidableEq κ] in
/-- ... and leaves an array that is searched correctly, for it leaves the mark. -/
theorem MhTable.Settled.del (ht : t.Settled hash) (x : Nat) : (mhTableDel t x).Settled hash := by
  by_cases hdel : x ≠ t.nBuckets ∧ (t.slots x).node.isSome
  · rw [mhTableDel, if_pos hdel]
    exact ⟨ht.prime, ht.small, ht.sound.clear, ht.hasOpen.clear⟩
  · rw [mhTableDel, if_neg hdel]
    exact ht

/-- `mh_del` without a resize. -/
theorem mhDel_of_settled {x : Nat} (hpos : h.resizePosition = 0) (hx : x < h.table.nBuckets) :
    mhDel hash h x = some { h with table := mhTableDel h.table x } := by
  rw [mhDel]
  split
  · next hnone =>
    have hsame : mhTableDel h.table x = h.table := by
      rw [mhTableDel, if_neg]
      rintro ⟨-, hsome⟩
      rw [hnone] at hsome
      exact absurd hsome (by simp)
    rw [hsame]
  · rw [if_neg (Nat.ne_of_lt hx)]
    simp only [hpos, Nat.lt_irrefl, if_false]

omit [DecidableEq κ] in
/-- `mh_first` and `mh_next` go to the next node. -/
theorem existFrom_spec (S : Slots κ β) (left i : Nat) :
    i ≤ existFrom S left i ∧ existFrom S left i ≤ i + left ∧
      (∀ j, i ≤ j → j < existFrom S left i → (S j).node = none) ∧
      (existFrom S left i < i + left → (S (existFrom S left i)).node ≠ none) := by
  induction left generalizing i with
  | zero => exact ⟨Nat.le_refl _, Nat.le_refl _, fun j h h' => absurd h' (by rw [existFrom]; omega),
      fun h => absurd h (by rw [existFrom]; omega)⟩
  | succ left ih =>
    rw [existFrom]
    split
    · next nd hnd =>
      refine ⟨Nat.le_refl _, Nat.le_add_right _ _, fun j h h' => by omega, fun _ => ?_⟩
      rw [hnd]
      exact Option.some_ne_none nd
    · next hnone =>
      obtain ⟨hle, hend, hskip, hstop⟩ := ih (i + 1)
      refine ⟨by omega, by omega, fun j hj hlt => ?_, fun h => hstop (by omega)⟩
      rcases Nat.eq_or_lt_of_le hj with rfl | hlt'
      · exact hnone
      · exact hskip j hlt' hlt

end Delete

end Spec

end TarantoolC.Mhash
