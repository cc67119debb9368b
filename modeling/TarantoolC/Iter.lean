/-
# TarantoolC.Iter — the iterators over an array and over a map.

`tnt_iter_array` and `tnt_iter_map` walk a container in a buffer: the pointer to an element is the
end of the one before, or the first one if the index is 0; a new iterator and a rewound one have the
index -1, which the first call makes 0.  The two differ only in how many values they step over at
once.

The index is an `int` and every call of `tnt_next` increments it, also behind the end.
`tntIter_enumerates_iff`: an iterator delimits the elements exactly and starts over when it is
rewound, as long as it is not called more than 2^31 times in between.

The pattern is the same twice, so it is stated once, over places of any type `α` (a pair of pointers
for an array, two pairs for a map) and a step over one place.  `Chain` says that the places lie side
by side, `Steps` that the step of the code goes from one to the next, and `behind it k` is the
iterator behind `k` calls in closed form.  `repeats_iff` is then about any such iterator, by
induction on the number of calls, and the two iterators of the library are its instances.

The bound.  The index is compared with the length as an `int`, and is incremented by every call,
also by those that report the end.  Behind `2 ^ 31 - 1` the increment has no defined result, so a
run is exact for `n` calls exactly if `n` is at most `2 ^ 31`: the number of elements does not
matter.
-/
import TarantoolC.Cursor

namespace TarantoolC.Iter

open MsgPack Msgpuck

/-! ## §1 — elements that lie side by side. -/

section Chain

variable {ν α : Type} {R : ν → α → Prop} {start stop : α → Nat}

/-- From `p` to `q` lie the places of these items, each where the one before ends. -/
inductive Chain (R : ν → α → Prop) (start stop : α → Nat) : Nat → List ν → Nat → List α → Prop
  | nil {p} : Chain R start stop p [] p []
  | cons {p v vs q a as} (hv : R v a) (hp : start a = p) (hs : Chain R start stop (stop a) vs q as) :
      Chain R start stop p (v :: vs) q (a :: as)

/-- As many places as items, ... -/
theorem Chain.length_eq {p q : Nat} {vs : List ν} {as : List α} (h : Chain R start stop p vs q as) :
    as.length = vs.length := by
  induction h with
  | nil => rfl
  | cons hv hp hs ih => rw [List.length_cons, List.length_cons, ih]

/-- Every place is that of an item. -/
theorem Chain.item {p q : Nat} {vs : List ν} {as : List α} (h : Chain R start stop p vs q as) {j : Nat}
    {a : α} (ha : as[j]? = some a) : ∃ v, R v a := by
  induction h generalizing j with
  | nil => exact absurd ha (by simp)
  | cons hv hp hs ih =>
    cases j with
    | zero => exact ⟨_, Option.some.inj ha ▸ hv⟩
    | succ j => exact ih ha

/-- ... each of them the place of an item, ... -/
theorem Chain.mem {p q : Nat} {vs : List ν} {as : List α} (h : Chain R start stop p vs q as) {a : α}
    (ha : a ∈ as) : ∃ v ∈ vs, R v a := by
  induction h with
  | nil => exact absurd ha List.not_mem_nil
  | @cons p v vs q b as hv hp hs ih =>
    rcases List.mem_cons.mp ha with rfl | hin
    · exact ⟨v, List.mem_cons_self, hv⟩
    · rcases ih hin with ⟨w, hw, hwa⟩
      exact ⟨w, List.mem_cons_of_mem v hw, hwa⟩

/-- Every place lies between the ends. -/
theorem Chain.within {p q : Nat} {vs : List ν} {as : List α} (h : Chain R start stop p vs q as)
    (hle : ∀ v a, R v a → start a ≤ stop a) : p ≤ q ∧ ∀ a ∈ as, p ≤ start a ∧ stop a ≤ q := by
  induction h with
  | nil => exact ⟨Nat.le_refl _, fun a ha => absurd ha List.not_mem_nil⟩
  | @cons p v vs q b as hv hp hs ih =>
    have hb := hle v b hv
    rcases ih with ⟨hq, hrest⟩
    refine ⟨by omega, fun a ha => ?_⟩
    rcases List.mem_cons.mp ha with rfl | hin
    · exact ⟨by omega, hq⟩
    · rcases hrest a hin with ⟨hfirst, hlast⟩
      exact ⟨by omega, hlast⟩

/-- ... the first of them at the start. -/
theorem Chain.start_first {p q : Nat} {vs : List ν} {as : List α} {a : α}
    (h : Chain R start stop p vs q as) (ha : as[0]? = some a) : start a = p := by
  cases h with
  | nil => exact absurd ha (by simp)
  | cons hv hp hs => exact Option.some.inj ha ▸ hp

/-- A place starts where the one before ends. -/
theorem Chain.start_next {p q : Nat} {vs : List ν} {as : List α} (h : Chain R start stop p vs q as)
    {j : Nat} {a b : α} (ha : as[j]? = some a) (hb : as[j + 1]? = some b) : start b = stop a := by
  induction h generalizing j with
  | nil => exact absurd ha (by simp)
  | cons hv hp hs ih =>
    cases j with
    | zero => rw [← Option.some.inj ha]; exact hs.start_first hb
    | succ j => exact ih ha hb

end Chain

/-! ## §2 — the code.

The two iterators with their fields, and `tnt_next` and `tnt_rewind` of each. -/

/-- `enum tnt_iter_status`. -/
inductive IterStatus where
  | ok
  | fail
  deriving Repr, DecidableEq

/-- `struct tnt_iter` for an array or a map, over the memory at `data`.  `cur` are the pointers to
the current element, or `NULL`. -/
structure TntIter (α : Type) where
  status : IterStatus
  alloc : Bool
  mem : Bytes
  first : Nat
  cur : Option α
  count : UInt32
  curIndex : Int

/-- `elem` and `elem_end`. -/
structure Elem where
  elem : Nat
  elemEnd : Nat
  deriving Repr, DecidableEq

/-- `key`, `key_end`, `value` and `value_end`. -/
structure Pair where
  key : Nat
  keyEnd : Nat
  value : Nat
  valueEnd : Nat
  deriving Repr, DecidableEq

/-- `INT_MAX`. -/
def intMax : Int := 2 ^ 31 - 1

section Code

variable [Msgpuck] {α : Type}

/-- The pointer a call starts from: the first one for the index 0, else the end of the element
before. -/
def TntIter.pointer (stop : α → Nat) (it : TntIter α) : Outcome Nat :=
  if it.curIndex = 0 then .ok it.first else .ofReader (it.cur.map stop)

/-- What the two `next` functions have in common: `stop` is the pointer to go on from, `step` moves
the pointers over an element.  Incrementing `INT_MAX` is undefined. -/
def nextWith (step : Bytes → Nat → Outcome α) (stop : α → Nat) (it : TntIter α) :
    Outcome (Int × TntIter α) := do
  if it.curIndex = intMax then .undef
  else
    let it := { it with curIndex := it.curIndex + 1 }
    if it.count.toNat ≤ (it.curIndex % 2 ^ 32).toNat then
      return (0, { it with status := .fail })
    let p ← it.pointer stop
    let cur ← step it.mem p
    return (1, { it with cur := some cur })

/-- What the two `rewind` functions do, and `tnt_rewind` before them. -/
def rewind (it : TntIter α) : TntIter α := { it with curIndex := -1, cur := none, status := .ok }

/-- `tnt_iter_init` and the fields both constructors set.  `given` says that the caller has an
iterator, `allocated` that there is memory for one; no iterator is `NULL`. -/
def initWith (given allocated : Bool) (data : Bytes) (first : Nat) (count : Nat) :
    Outcome (TntIter α) :=
  if given || allocated then
    .ok
      { status := .ok, alloc := !given, mem := data, first := first, cur := none
        count := UInt32.ofNat count, curIndex := -1 }
  else .fail

/-- One element. -/
def stepElem (mem : Bytes) (p : Nat) : Outcome Elem := do
  let q ← nextAt mem p
  return ⟨p, q⟩

/-- A key and its value. -/
def stepPair (mem : Bytes) (p : Nat) : Outcome Pair := do
  let q ← nextAt mem p
  let r ← nextAt mem q
  return ⟨p, q, q, r⟩

/-- `tnt_iter_array_next`. -/
def tntIterArrayNext : TntIter Elem → Outcome (Int × TntIter Elem) := nextWith stepElem Elem.elemEnd

/-- `tnt_iter_map_next`. -/
def tntIterMapNext : TntIter Pair → Outcome (Int × TntIter Pair) := nextWith stepPair Pair.valueEnd

/-- `tnt_iter_array_rewind`. -/
def tntIterArrayRewind : TntIter Elem → TntIter Elem := rewind

/-- `tnt_iter_map_rewind`. -/
def tntIterMapRewind : TntIter Pair → TntIter Pair := rewind

/-- The body of the two constructors, for the type and the header they look for. -/
def iterWith (ty : Ty) (decode : Bytes → Nat → Outcome (Nat × Nat)) (given allocated : Bool)
    (data : Bytes) : Outcome (TntIter α) := do
  if mpCheck data = none then .fail
  else if data = [] then .fail
  else
    expectType data 0 ty
    let (n, p) ← decode data 0
    initWith given allocated data p n

/-- `tnt_iter_array`. -/
def tntIterArray : Bool → Bool → Bytes → Outcome (TntIter Elem) := iterWith .array decodeArrayAt

/-- `tnt_iter_map`. -/
def tntIterMap : Bool → Bool → Bytes → Outcome (TntIter Pair) := iterWith .map decodeMapAt

/-- `k` calls of `next`: what each returned and left, and the iterator behind them. -/
def calls (next : TntIter α → Outcome (Int × TntIter α)) :
    Nat → TntIter α → Outcome (List (Int × TntIter α) × TntIter α)
  | 0, it => .ok ([], it)
  | k + 1, it => do
    let (rs, it) ← calls next k it
    let (r, it) ← next it
    return (rs ++ [(r, it)], it)

end Code

/-! ## §3 — the state behind a number of calls.

In closed form, for as many calls as do not overflow the index. -/

section Walk

variable {ν α : Type}

/-- The iterator `it` behind `k` calls, for the places `as`. -/
def TntIter.behind (it : TntIter α) (as : List α) (k : Nat) : TntIter α :=
  { it with
    curIndex := (k : Int) - 1
    cur := (as.take k).getLast?
    status := if k ≤ as.length then .ok else .fail }

/-- A new iterator. -/
structure TntIter.Fresh (it : TntIter α) (as : List α) : Prop where
  status : it.status = .ok
  cur : it.cur = none
  index : it.curIndex = -1
  count : it.count.toNat = as.length

/-- No calls leave a new iterator as it is. -/
theorem TntIter.Fresh.behind_zero {it : TntIter α} {as : List α} (h : it.Fresh as) :
    it.behind as 0 = it := by
  obtain ⟨hstatus, hcur, hindex, -⟩ := h
  cases it
  simp_all [TntIter.behind]

/-- Rewinding undoes any number of calls. -/
theorem TntIter.Fresh.rewind_behind {it : TntIter α} {as : List α} (h : it.Fresh as) (k : Nat) :
    rewind (it.behind as k) = it := by
  obtain ⟨hstatus, hcur, hindex, -⟩ := h
  cases it
  simp_all [TntIter.behind, rewind]

/-- What the call number `j` returns. -/
def answer (as : List α) (j : Nat) : Int := if j < as.length then 1 else 0

variable {R : ν → α → Prop} {start stop : α → Nat} {step : Bytes → Nat → Outcome α}

/-- The step over the places is the step of the code. -/
def Steps (R : ν → α → Prop) (start : α → Nat) (step : Bytes → Nat → Outcome α) (mem : Bytes) : Prop :=
  ∀ v a, R v a → step mem (start a) = .ok a

/-- The last of the first `k + 1`. -/
theorem getLast?_take_succ {as : List α} {k : Nat} (hk : k < as.length) :
    (as.take (k + 1)).getLast? = some as[k] := by
  rw [List.getLast?_take, if_neg (Nat.succ_ne_zero k), Nat.add_sub_cancel,
    List.getElem?_eq_getElem hk]
  rfl

/-- The call number `k` starts at the place number `k`. -/
theorem Chain.pointer {it : TntIter α} {q : Nat} {vs : List ν} {as : List α}
    (h : Chain R start stop it.first vs q as) {k : Nat} (hk : k < as.length) :
    TntIter.pointer stop { it.behind as k with curIndex := (k : Int) } = .ok (start as[k]) := by
  have hget : as[k]? = some as[k] := List.getElem?_eq_getElem hk
  unfold TntIter.pointer TntIter.behind
  cases k with
  | zero => rw [h.start_first hget]; rfl
  | succ k =>
    have hprev : as[k]? = some as[k] := List.getElem?_eq_getElem (Nat.lt_of_succ_lt hk)
    rw [if_neg (by simp only; omega), getLast?_take_succ (Nat.lt_of_succ_lt hk),
      h.start_next hprev hget]
    rfl

/-- One call. -/
theorem nextWith_behind {it : TntIter α} {vs : List ν} {as : List α} {q : Nat} (hfresh : it.Fresh as)
    (hchain : Chain R start stop it.first vs q as) (hstep : Steps R start step it.mem) {k : Nat}
    (hk : k < 2 ^ 31) :
    nextWith step stop (it.behind as k) = .ok (answer as k, it.behind as (k + 1)) := by
  have hne : ¬ (k : Int) - 1 = intMax := by
    unfold intMax
    omega
  have hindex : (k : Int) - 1 + 1 = k := by omega
  have hmod : ((k : Int) % 2 ^ 32).toNat = k := by omega
  have hafter : ((k + 1 : Nat) : Int) - 1 = k := by omega
  have hpointer (hlt : k < as.length) := hchain.pointer hlt
  simp only [nextWith, TntIter.behind, if_neg hne, hindex, hmod, hfresh.count, hafter] at hpointer ⊢
  by_cases hlt : k < as.length
  · obtain ⟨v, hv⟩ := hchain.item (List.getElem?_eq_getElem hlt)
    rw [if_neg (by omega), hpointer hlt, Outcome.ok_bind, hstep v _ hv, Outcome.ok_bind,
      answer, if_pos hlt, getLast?_take_succ hlt, if_pos (by omega : k ≤ as.length),
      if_pos (by omega : k + 1 ≤ as.length)]
    rfl
  · -- behind the end only the index moves
    have hcur : (as.take k).getLast? = (as.take (k + 1)).getLast? := by
      rw [List.take_of_length_le (by omega), List.take_of_length_le (by omega)]
    rw [if_pos (by omega), answer, if_neg hlt, hcur, if_neg (by omega : ¬ k + 1 ≤ as.length)]
    rfl

/-- The index cannot be incremented any more. -/
theorem nextWith_overflow (it : TntIter α) (as : List α) :
    nextWith step stop (it.behind as (2 ^ 31)) = .undef := by
  rw [nextWith, if_pos]
  show ((2 ^ 31 : Nat) : Int) - 1 = intMax
  unfold intMax
  omega

/-- Any number of calls, up to 2^31. -/
theorem calls_behind {it : TntIter α} {vs : List ν} {as : List α} {q : Nat} (hfresh : it.Fresh as)
    (hchain : Chain R start stop it.first vs q as) (hstep : Steps R start step it.mem) {k : Nat}
    (hk : k ≤ 2 ^ 31) :
    calls (nextWith step stop) k it =
      .ok ((List.range k).map fun j => (answer as j, it.behind as (j + 1)), it.behind as k) := by
  induction k with
  | zero => rw [calls, hfresh.behind_zero]; rfl
  | succ k ih =>
    rw [calls, ih (Nat.le_of_succ_le hk), Outcome.ok_bind]
    simp only [nextWith_behind hfresh hchain hstep (Nat.lt_of_succ_le hk), Outcome.ok_bind,
      List.range_succ, List.map_append, List.map_cons, List.map_nil]
    rfl

/-- More calls than that are undefined. -/
theorem calls_overflow {it : TntIter α} {vs : List ν} {as : List α} {q : Nat} (hfresh : it.Fresh as)
    (hchain : Chain R start stop it.first vs q as) (hstep : Steps R start step it.mem) {k : Nat}
    (hk : 2 ^ 31 < k) : calls (nextWith step stop) k it = .undef := by
  induction k with
  | zero => exact absurd hk (Nat.not_lt_zero _)
  | succ k ih =>
    rw [calls]
    rcases Nat.lt_or_eq_of_le (Nat.le_of_lt_succ hk) with hlt | heq
    · rw [ih hlt]
      rfl
    · rw [← heq, calls_behind hfresh hchain hstep le_rfl, Outcome.ok_bind]
      simp only [nextWith_overflow, Outcome.undef_bind]

end Walk

/-! ## §4 — the places of the elements.

Where each element begins and ends, from the first byte behind the header to the end of the
container. -/

/-- The bytes from `p` to `q` are an encoding of `v`. -/
def Delimits (mem : Bytes) (v : Value) (p q : Nat) : Prop :=
  ∃ pre bs rest, mem = pre ++ (bs ++ rest) ∧ Encodes v bs ∧ p = pre.length ∧ q = (pre ++ bs).length

/-- The pointers are those of an element. -/
def IsElem (mem : Bytes) (v : Value) (a : Elem) : Prop := Delimits mem v a.elem a.elemEnd

/-- The pointers are those of a key and of the value behind it. -/
def IsPair (mem : Bytes) (kv : Value × Value) (a : Pair) : Prop :=
  Delimits mem kv.1 a.key a.keyEnd ∧ a.value = a.keyEnd ∧ Delimits mem kv.2 a.value a.valueEnd

/-- The elements of an array, one beside the other from `p` to `q`. -/
def Elements (mem : Bytes) (p : Nat) (xs : List Value) (q : Nat) (as : List Elem) : Prop :=
  Chain (IsElem mem) Elem.elem Elem.elemEnd p xs q as

/-- The pairs of a map. -/
def Pairs (mem : Bytes) (p : Nat) (kvs : List (Value × Value)) (q : Nat) (as : List Pair) : Prop :=
  Chain (IsPair mem) Pair.key Pair.valueEnd p kvs q as

/-- The elements of an array in memory lie side by side, ... -/
theorem elements_of_encodes {xs : List Value} {body : Bytes} (h : EncodesAll xs body)
    (pre rest : Bytes) :
    ∃ as, Elements (pre ++ (body ++ rest)) pre.length xs (pre ++ body).length as := by
  induction xs generalizing pre body with
  | nil =>
    cases h
    exact ⟨[], by rw [List.append_nil]; exact .nil⟩
  | cons v xs ih =>
    obtain ⟨bs, body, rfl, hv, hxs⟩ := h.cons_cases
    obtain ⟨as, has⟩ := ih hxs (pre ++ bs)
    rw [List.append_assoc, List.append_assoc, ← List.append_assoc bs] at has
    exact ⟨⟨pre.length, (pre ++ bs).length⟩ :: as,
      .cons ⟨pre, bs, body ++ rest, by simp, hv, rfl, rfl⟩ rfl has⟩

/-- ... and so do the pairs of a map. -/
theorem pairs_of_encodes {kvs : List (Value × Value)} {body : Bytes} (h : EncodesAll (flat kvs) body)
    (pre rest : Bytes) :
    ∃ as, Pairs (pre ++ (body ++ rest)) pre.length kvs (pre ++ body).length as := by
  induction kvs generalizing pre body with
  | nil =>
    cases h
    exact ⟨[], by rw [List.append_nil]; exact .nil⟩
  | cons kv kvs ih =>
    obtain ⟨k, v⟩ := kv
    obtain ⟨bs, body, rfl, hk, hrest⟩ := EncodesAll.cons_cases h
    obtain ⟨cs, body, rfl, hv, hkvs⟩ := hrest.cons_cases
    obtain ⟨as, has⟩ := ih hkvs (pre ++ (bs ++ cs))
    have hmem : pre ++ (bs ++ cs) ++ (body ++ rest) = pre ++ (bs ++ (cs ++ body) ++ rest) := by simp
    have hend : pre ++ (bs ++ cs) ++ body = pre ++ (bs ++ (cs ++ body)) := by simp
    rw [hmem, hend] at has
    refine ⟨⟨pre.length, (pre ++ bs).length, (pre ++ bs).length, (pre ++ (bs ++ cs)).length⟩ :: as,
      .cons ⟨⟨pre, bs, cs ++ (body ++ rest), by simp, hk, rfl, rfl⟩, rfl,
        ⟨pre ++ bs, cs, body ++ rest, by simp, hv, rfl, by simp⟩⟩ rfl has⟩

section Places

variable [Msgpuck]

/-- `mp_next` goes over what is delimited. -/
theorem Delimits.next {mem : Bytes} {v : Value} {p q : Nat} (h : Delimits mem v p q) :
    nextAt mem p = .ok q := by
  obtain ⟨pre, bs, rest, rfl, hv, rfl, rfl⟩ := h
  exact nextAt_front pre rest hv

/-- The step over an element, ... -/
theorem stepElem_steps (mem : Bytes) : Steps (IsElem mem) Elem.elem stepElem mem := by
  intro v a ha
  rw [stepElem, ha.next]
  rfl

/-- ... and the one over a pair. -/
theorem stepPair_steps (mem : Bytes) : Steps (IsPair mem) Pair.key stepPair mem := by
  rintro kv a ⟨hkey, heq, hvalue⟩
  rw [heq] at hvalue
  obtain ⟨key, keyEnd, value, valueEnd⟩ := a
  obtain rfl : value = keyEnd := heq
  simp only [stepPair, hkey.next, hvalue.next, Outcome.ok_bind, Outcome.pure_eq]

/-! ## §5 — the constructors.

`mp_check` and the type decide whether there is an iterator. -/

/-- The buffer starts with a complete array. -/
def StartsWithArray (data : Bytes) : Prop := ∃ xs bs rest, data = bs ++ rest ∧ Encodes (.array xs) bs

/-- The buffer starts with a complete map. -/
def StartsWithMap (data : Bytes) : Prop := ∃ kvs bs rest, data = bs ++ rest ∧ Encodes (.map kvs) bs

/-- A buffer that does not start with a complete value of the type is refused. -/
theorem iterWith_null {α : Type} {t : Ty} {data : Bytes}
    (h : ∀ v bs rest, data = bs ++ rest → Encodes v bs → v.ty ≠ t)
    (decode : Bytes → Nat → Outcome (Nat × Nat)) (given allocated : Bool) :
    iterWith (α := α) t decode given allocated data = .fail := by
  unfold iterWith
  cases hcheck : mpCheck data with
  | none => rfl
  | some k =>
    obtain ⟨v, bs, rest, rfl, hv, -⟩ := (mpCheck_iff _ _).mp hcheck
    have htype : typeAt (bs ++ rest) 0 = .ok v.ty := typeAt_front [] rest hv
    have hexpect : expectType (bs ++ rest) 0 t = .fail := by
      rw [expectType, htype, Outcome.ok_bind, if_pos (h v bs rest rfl hv)]
    rw [if_neg (by simp), hexpect]
    split_ifs <;> rfl

/-- A buffer that does gets an iterator, which stands behind the header. -/
theorem iterWith_front {α : Type} {v : Value} {bs rest : Bytes} (hv : Encodes v bs)
    {decode : Bytes → Nat → Outcome (Nat × Nat)} {n head : Nat}
    (hdecode : decode (bs ++ rest) 0 = .ok (n, head)) (hn : n < 2 ^ 32) {given allocated : Bool}
    (hmem : given || allocated) :
    ∃ it : TntIter α, iterWith v.ty decode given allocated (bs ++ rest) = .ok it ∧
      it.mem = bs ++ rest ∧ it.first = head ∧ ∀ as : List α, as.length = n → it.Fresh as := by
  have hcheck : mpCheck (bs ++ rest) ≠ none := by
    rw [mpCheck_front hv rest]
    simp
  have hne : bs ++ rest ≠ [] := List.append_ne_nil_of_left_ne_nil hv.ne_nil rest
  have htype : expectType (bs ++ rest) 0 v.ty = .ok () := expectType_front [] rest hv
  let it : TntIter α :=
    { status := .ok, alloc := !given, mem := bs ++ rest, first := head, cur := none
      count := UInt32.ofNat n, curIndex := -1 }
  refine ⟨it, ?_, rfl, rfl, ?_⟩
  · rw [iterWith, if_neg hcheck, if_neg hne, htype, Outcome.ok_bind, hdecode, Outcome.ok_bind]
    exact if_pos hmem
  · intro as has
    refine ⟨rfl, rfl, rfl, ?_⟩
    rw [has]
    exact Nat.mod_eq_of_lt hn

/-- An iterator over an array stands in front of its elements. -/
theorem tntIterArray_fresh {given allocated : Bool} (hmem : given || allocated) {xs : List Value}
    {bs : Bytes} (hbs : Encodes (.array xs) bs) (rest : Bytes) (hn : xs.length < 2 ^ 32) :
    ∃ it as, tntIterArray given allocated (bs ++ rest) = .ok it ∧ it.mem = bs ++ rest ∧
      mpDecodeArray bs = some (xs.length, it.first) ∧
      Elements (bs ++ rest) it.first xs bs.length as ∧ it.Fresh as := by
  obtain ⟨b, l, ds, body, rfl, hlead, hl, hbody⟩ := hbs.array_cases
  obtain ⟨as, has⟩ := elements_of_encodes hbody (b :: ds) rest
  have hhead (tail : Bytes) : mpDecodeArray (b :: ds ++ body ++ tail) =
      some (xs.length, (b :: ds).length) :=
    (mpDecodeArray_iff _ _ _).mpr ⟨b, l, ds, body ++ tail, by simp, hlead, hl, by simp; omega⟩
  have hdecode : decodeArrayAt (b :: ds ++ body ++ rest) 0 = .ok (xs.length, (b :: ds).length) := by
    rw [decodeArrayAt, List.drop_zero, hhead rest]
    simp [Outcome.ofReader]
  obtain ⟨it, hit, hitmem, hfirst, hfresh⟩ := iterWith_front (α := Elem) hbs hdecode hn hmem
  refine ⟨it, as, hit, hitmem, ?_, ?_, hfresh as has.length_eq⟩
  · rw [hfirst]
    simpa using hhead []
  · rw [hfirst, List.append_assoc]
    exact has

/-- An iterator over a map stands in front of its pairs. -/
theorem tntIterMap_fresh {given allocated : Bool} (hmem : given || allocated)
    {kvs : List (Value × Value)} {bs : Bytes} (hbs : Encodes (.map kvs) bs) (rest : Bytes)
    (hn : kvs.length < 2 ^ 32) :
    ∃ it as, tntIterMap given allocated (bs ++ rest) = .ok it ∧ it.mem = bs ++ rest ∧
      mpDecodeMap bs = some (kvs.length, it.first) ∧
      Pairs (bs ++ rest) it.first kvs bs.length as ∧ it.Fresh as := by
  obtain ⟨b, l, ds, body, rfl, hlead, hl, hbody⟩ := hbs.map_cases
  obtain ⟨as, has⟩ := pairs_of_encodes hbody (b :: ds) rest
  have hhead (tail : Bytes) : mpDecodeMap (b :: ds ++ body ++ tail) =
      some (kvs.length, (b :: ds).length) :=
    (mpDecodeMap_iff _ _ _).mpr ⟨b, l, ds, body ++ tail, by simp, hlead, hl, by simp; omega⟩
  have hdecode : decodeMapAt (b :: ds ++ body ++ rest) 0 = .ok (kvs.length, (b :: ds).length) := by
    rw [decodeMapAt, List.drop_zero, hhead rest]
    simp [Outcome.ofReader]
  obtain ⟨it, hit, hitmem, hfirst, hfresh⟩ := iterWith_front (α := Pair) hbs hdecode hn hmem
  refine ⟨it, as, hit, hitmem, ?_, ?_, hfresh as has.length_eq⟩
  · rw [hfirst]
    simpa using hhead []
  · rw [hfirst, List.append_assoc]
    exact has

/-! ## §6 — the run of an iterator.

Both iterators, as instances of what was said of any. -/

/-- The first `k` calls go through the places and then report the end, and the iterator rewound
behind them is the one that was made. -/
def Repeats {α : Type} (next : TntIter α → Outcome (Int × TntIter α)) (rewind : TntIter α → TntIter α)
    (it : TntIter α) (as : List α) (k : Nat) : Prop :=
  ∃ rs it', calls next k it = .ok (rs, it') ∧ rs.length = k ∧ rewind it' = it ∧
    ∀ (j : Nat) (r : Int) (i : TntIter α), rs[j]? = some (r, i) → match as[j]? with
      | some a => r = 1 ∧ i.cur = some a
      | none => r = 0 ∧ i.status = .fail

omit [Msgpuck] in
/-- **The run of an iterator**, and the run after it has been rewound: exact as long as the index
does not overflow.  The index is what counts the calls, and the only thing in the state that can
overflow. -/
theorem repeats_iff {ν α : Type} {R : ν → α → Prop} {start stop : α → Nat}
    {step : Bytes → Nat → Outcome α} {it : TntIter α} {vs : List ν} {as : List α} {q : Nat}
    (hfresh : it.Fresh as) (hchain : Chain R start stop it.first vs q as)
    (hstep : Steps R start step it.mem) (k : Nat) :
    Repeats (nextWith step stop) rewind it as k ↔ k ≤ 2 ^ 31 := by
  constructor
  · rintro ⟨rs, it', hcalls, -⟩
    by_contra hk
    -- the index is an `int`: the call after 2^31 of them overflows it
    rw [calls_overflow hfresh hchain hstep (Nat.lt_of_not_le hk)] at hcalls
    exact absurd hcalls (by simp)
  · intro hk
    refine ⟨_, _, calls_behind hfresh hchain hstep hk, by simp, hfresh.rewind_behind k, ?_⟩
    intro j r i hj
    have hlt : j < k := by
      have hlen := (List.getElem?_eq_some_iff.mp hj).1
      simpa using hlen
    rw [List.getElem?_map, List.getElem?_range hlt] at hj
    obtain ⟨rfl, rfl⟩ := Prod.mk.inj (Option.some.inj hj)
    cases ha : as[j]? with
    | none =>
      -- behind the last element: 0, and the status says so
      have hend : as.length ≤ j := List.getElem?_eq_none_iff.mp ha
      exact ⟨if_neg (by omega), if_neg (by omega)⟩
    | some a =>
      obtain ⟨hin, rfl⟩ := List.getElem?_eq_some_iff.mp ha
      exact ⟨if_pos hin, getLast?_take_succ hin⟩

/-- **The iterators enumerate the elements**: a buffer that does not start with a complete array
(map) is refused; otherwise the places of the elements lie side by side from the header to the end
of the container, and any number of calls exposes them in order, reports the end, and is undone by
rewinding, exactly if there are no more than 2^31 of them.  The index of an iterator is an `int`
that starts at -1, so the bound is where counting one more is undefined.  In between the iterator is
described by how many elements it has passed; a rewind is a step like any other, and `tnt_next` on
an array and on a map differ in how many values one element has. -/
theorem tntIter_enumerates_iff (given allocated : Bool) (data : Bytes) :
    (¬ StartsWithArray data → tntIterArray given allocated data = .fail) ∧
    (¬ StartsWithMap data → tntIterMap given allocated data = .fail) ∧
    ((given || allocated) → ∀ xs bs rest, data = bs ++ rest → Encodes (.array xs) bs →
      xs.length < 2 ^ 31 → ∃ it as, tntIterArray given allocated data = .ok it ∧
        mpDecodeArray bs = some (xs.length, it.first) ∧ Elements data it.first xs bs.length as ∧
        ∀ k, Repeats tntIterArrayNext tntIterArrayRewind it as k ↔ k ≤ 2 ^ 31) ∧
    ((given || allocated) → ∀ kvs bs rest, data = bs ++ rest → Encodes (.map kvs) bs →
      kvs.length < 2 ^ 31 → ∃ it as, tntIterMap given allocated data = .ok it ∧
        mpDecodeMap bs = some (kvs.length, it.first) ∧ Pairs data it.first kvs bs.length as ∧
        ∀ k, Repeats tntIterMapNext tntIterMapRewind it as k ↔ k ≤ 2 ^ 31) := by
  refine ⟨?_, ?_, ?_, ?_⟩
  · intro hno
    -- a complete value of another type, or none
    apply iterWith_null
    intro v bs rest hdata hv ht
    obtain ⟨xs, rfl⟩ := Value.eq_array_of_ty ht
    exact hno ⟨xs, bs, rest, hdata, hv⟩
  · intro hno
    apply iterWith_null
    intro v bs rest hdata hv ht
    obtain ⟨kvs, rfl⟩ : ∃ kvs, v = .map kvs := by
      cases v <;> first | exact ⟨_, rfl⟩ | exact absurd ht (by simp [Value.ty])
    exact hno ⟨kvs, bs, rest, hdata, hv⟩
  · rintro hmem xs bs rest rfl hbs hn
    obtain ⟨it, as, hit, hitmem, hhead, has, hfresh⟩ := tntIterArray_fresh hmem hbs rest (by omega)
    refine ⟨it, as, hit, hhead, has, ?_⟩
    apply repeats_iff hfresh has
    rw [hitmem]
    exact stepElem_steps _
  · rintro hmem kvs bs rest rfl hbs hn
    obtain ⟨it, as, hit, hitmem, hhead, has, hfresh⟩ := tntIterMap_fresh hmem hbs rest (by omega)
    refine ⟨it, as, hit, hhead, has, ?_⟩
    apply repeats_iff hfresh has
    rw [hitmem]
    exact stepPair_steps _

end Places

/-- `[7, [8]]` and a byte behind it. -/
theorem tntIter_enumerates_nested :
    ∃ it as, @tntIterArray Msgpuck.reference false true [0x92, 0x07, 0x91, 0x08, 0xc0] = .ok it ∧
      Elements [0x92, 0x07, 0x91, 0x08, 0xc0] it.first [.uint 7, .array [.uint 8]] 4 as ∧
      Repeats (@tntIterArrayNext Msgpuck.reference) tntIterArrayRewind it as 5 := by
  have henc : Encodes (.array [.uint 7, .array [.uint 8]]) [0x92, 0x07, 0x91, 0x08] :=
    encodes_encodeWith packed_sound (.array [.uint 7, .array [.uint 8]])
      (by simp [Value.Fits, FitsAll])
  obtain ⟨-, -, harray, -⟩ := @tntIter_enumerates_iff Msgpuck.reference false true
    [0x92, 0x07, 0x91, 0x08, 0xc0]
  obtain ⟨it, as, hit, -, has, hrepeats⟩ := harray rfl _ _ [0xc0] rfl henc (by decide)
  exact ⟨it, as, hit, has, (hrepeats 5).mpr (by decide)⟩

/-- An empty array, and one call too many. -/
theorem tntIter_index_overflows :
    ∃ it, @tntIterArray Msgpuck.reference false true [0x90] = .ok it ∧
      calls (@tntIterArrayNext Msgpuck.reference) (2 ^ 31 + 1) it = .undef ∧
      ∀ as, ¬ Repeats (@tntIterArrayNext Msgpuck.reference) tntIterArrayRewind it as (2 ^ 31 + 1) := by
  let it : TntIter Elem :=
    { status := .ok, alloc := true, mem := [0x90], first := 1, cur := none, count := 0, curIndex := -1 }
  have hcalls : calls (@tntIterArrayNext Msgpuck.reference) (2 ^ 31 + 1) it = .undef :=
    calls_overflow ⟨rfl, rfl, rfl, rfl⟩ (.nil : Elements [0x90] 1 [] 1 [])
      (@stepElem_steps Msgpuck.reference [0x90]) (Nat.lt_succ_self _)
  refine ⟨it, rfl, hcalls, ?_⟩
  rintro as ⟨rs, it', hok, -⟩
  exact absurd (hcalls.symm.trans hok) (by simp)

end TarantoolC.Iter
