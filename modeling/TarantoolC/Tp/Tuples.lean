/-
# TarantoolC.Tp.Tuples — the cursor of `tp.h` over the tuples of a response and their fields.

Two iterators over arrays, and the first sets up the second: `tp_next` makes an iterator over the
fields of the tuple it steps to, or clears it, and `tp_rewind` clears it too.  An iterator that is
made or rewound has the index -1 and one that is cleared the index 0; that the latter has nothing
left is said by its count, which is 0 as well.

Over the places of the tuples and fields stands a POSITION: how many tuples have been passed, how
many fields of the last of them, and whether an end has been reported (`Position.step`).  The two
iterators agree with it whatever the order of the steps (`Agrees.step`), so that what the functions
show at a position is all there is to know (`tuples_visited`).

§7 is where the assumptions come from.  What `tp_reply` leaves in a response is known from its code
alone, for any bytes at all: the data lie inside the buffer, behind the header, and the iterators
are over them.  That the data are an array with fewer than `2^31` values is asked of the response;
`cur_index` is an `int`, and incrementing it beyond that is undefined.
-/
import TarantoolC.Tp.Reply
import TarantoolC.Iter

namespace TarantoolC.Tp

open MsgPack Msgpuck Reply Iter

/-! ## §1 — the code.

A response has an iterator over its tuples and one over the fields of the tuple it is at.  All
functions but two are readings of these; `tp_next` and `tp_rewind` are where both change. -/

section Code

variable [Msgpuck]

/-- `tp_array_itr_next`.  Incrementing `INT_MAX` is undefined. -/
def tpArrayItrNext (buf : Bytes) (itr : ArrayItr) : Outcome (Bool × ArrayItr) := do
  if itr.curIndex = intMax then .undef
  else
    let itr := { itr with curIndex := itr.curIndex + 1 }
    if itr.elemCount ≤ (itr.curIndex % 2 ^ 32).toNat then return (false, itr)
    let elem ← .ofReader (if itr.curIndex = 0 then itr.firstElem else itr.elemEnd)
    let elemEnd ← nextAt buf elem
    return (true, { itr with elem := some elem, elemEnd := some elemEnd })

omit [Msgpuck] in
/-- `tp_array_itr_reset`. -/
def tpArrayItrReset (itr : ArrayItr) : ArrayItr :=
  { itr with curIndex := -1, elem := none, elemEnd := none }

/-- The iterator behind `tp_array_itr_init`, whose result `tp_next` does not look at: a failure
leaves it cleared. -/
def fieldItrAt (buf : Bytes) (data size : Nat) : Outcome ArrayItr :=
  match tpArrayItrInit buf data size with
  | .fail => .ok zeroItr
  | itr => itr

/-- `(uint32_t)(cur_index + 1) < elem_count`. -/
def ArrayItr.hasMore (itr : ArrayItr) : Outcome Bool :=
  if itr.curIndex = intMax then .undef
  else .ok (((itr.curIndex + 1) % 2 ^ 32).toNat < itr.elemCount)

/-- `tp_rewind`. -/
def tpRewind (r : TpResponse) : TpResponse :=
  { r with tupleItr := tpArrayItrReset r.tupleItr, fieldItr := zeroItr }

/-- `tp_next`. -/
def tpNext (buf : Bytes) (r : TpResponse) : Outcome (Bool × TpResponse) := do
  let (more, itr) ← tpArrayItrNext buf r.tupleItr
  if !more then return (false, { r with tupleItr := itr, fieldItr := zeroItr })
  let elem ← .ofReader itr.elem
  let elemEnd ← .ofReader itr.elemEnd
  let fieldItr ← fieldItrAt buf elem (elemEnd - elem)
  return (true, { r with tupleItr := itr, fieldItr := fieldItr })

/-- `tp_hasnext`. -/
def tpHasnext (r : TpResponse) : Outcome Bool := r.tupleItr.hasMore

/-- `tp_gettuple`. -/
def tpGettuple (r : TpResponse) : Option Nat := r.tupleItr.elem

/-- `tp_tupleend`. -/
def tpTupleend (r : TpResponse) : Option Nat := r.tupleItr.elemEnd

/-- `tp_rewindfield`. -/
def tpRewindfield (r : TpResponse) : TpResponse :=
  { r with fieldItr := tpArrayItrReset r.fieldItr }

/-- `tp_nextfield`. -/
def tpNextfield (buf : Bytes) (r : TpResponse) : Outcome (Bool × TpResponse) := do
  let (more, itr) ← tpArrayItrNext buf r.fieldItr
  return (more, { r with fieldItr := itr })

/-- `tp_hasnextfield`. -/
def tpHasnextfield (r : TpResponse) : Outcome Bool := r.fieldItr.hasMore

/-- `tp_getfield`. -/
def tpGetfield (r : TpResponse) : Option Nat := r.fieldItr.elem

/-- `tp_getfieldsize`, a `uint32_t`. -/
def tpGetfieldsize (r : TpResponse) : Nat :=
  match r.fieldItr.elem, r.fieldItr.elemEnd with
  | some elem, some elemEnd => (elemEnd - elem) % 2 ^ 32
  | _, _ => 0

/-- `while (tp_nextfield(r))`: the fields its body sees, and their sizes. -/
def fieldLoop (buf : Bytes) : Nat → TpResponse → Outcome (List (Option Nat × Nat) × TpResponse)
  | 0, _ => .undef
  | fuel + 1, r => do
    let (more, r) ← tpNextfield buf r
    if more then
      let (fields, last) ← fieldLoop buf fuel r
      return ((tpGetfield r, tpGetfieldsize r) :: fields, last)
    else return ([], r)

/-- `while (tp_next(r)) while (tp_nextfield(r))`: the tuples, each with its fields. -/
def tupleLoop (buf : Bytes) (inner : Nat) :
    Nat → TpResponse → Outcome (List ((Option Nat × Option Nat) × List (Option Nat × Nat)) × TpResponse)
  | 0, _ => .undef
  | fuel + 1, r => do
    let (more, r) ← tpNext buf r
    if more then
      let (fields, r') ← fieldLoop buf inner r
      let (tuples, last) ← tupleLoop buf inner fuel r'
      return (((tpGettuple r, tpTupleend r), fields) :: tuples, last)
    else return ([], r)

end Code

/-! ## §2 — positions.

The abstract cursor.  It has no pointers, and it tells an end that was reported from one that was
not, because the iterators do: behind an end that was reported, another step would count on. -/

/-- A tuple: its place, and those of its fields; what is not an array has none. -/
structure Row where
  place : Elem
  fields : List Elem

/-- So many items have been passed; `none` once the end has been reported. -/
def advance (n : Nat) : Option Nat → Bool × Option Nat
  | some k => if k < n then (true, some (k + 1)) else (false, none)
  | none => (false, none)

/-- Where the two enumerations stand. -/
structure Position where
  row : Option Nat
  col : Option Nat

def Position.start : Position := ⟨some 0, some 0⟩

/-- The fields of the tuple that was passed last. -/
def Position.fields (rows : List Row) (c : Position) : List Elem :=
  match c.row with
  | some (k + 1) => (rows[k]?).elim [] Row.fields
  | _ => []

inductive Step where
  | next | nextfield | rewind | rewindfield
  deriving Repr, DecidableEq

def Position.step (rows : List Row) (c : Position) : Step → Option Bool × Position
  | .next => (some (advance rows.length c.row).1, ⟨(advance rows.length c.row).2, some 0⟩)
  | .nextfield =>
    (some (advance (c.fields rows).length c.col).1,
      ⟨c.row, (advance (c.fields rows).length c.col).2⟩)
  | .rewind => (none, .start)
  | .rewindfield => (none, ⟨c.row, some 0⟩)

/-- No further step beyond an end that has been reported. -/
def Step.Allowed (c : Position) : Step → Prop
  | .next => c.row ≠ none
  | .nextfield => c.col ≠ none
  | _ => True

def Position.Legal (rows : List Row) : Position → List Step → Prop
  | _, [] => True
  | c, s :: steps => s.Allowed c ∧ Position.Legal rows (c.step rows s).2 steps

def Position.run (rows : List Row) : Position → List Step → List (Option Bool) × Position
  | c, [] => ([], c)
  | c, s :: steps =>
    ((c.step rows s).1 :: (Position.run rows (c.step rows s).2 steps).1,
      (Position.run rows (c.step rows s).2 steps).2)

section Steps

variable [Msgpuck]

/-- What the function returns, if it returns something. -/
def Step.run (buf : Bytes) (r : TpResponse) : Step → Outcome (Option Bool × TpResponse)
  | .next => do
    let (more, r) ← tpNext buf r
    return (some more, r)
  | .nextfield => do
    let (more, r) ← tpNextfield buf r
    return (some more, r)
  | .rewind => .ok (none, tpRewind r)
  | .rewindfield => .ok (none, tpRewindfield r)

def runSteps (buf : Bytes) : List Step → TpResponse → Outcome (List (Option Bool) × TpResponse)
  | [], r => .ok ([], r)
  | s :: steps, r => do
    let (answer, r) ← s.run buf r
    let (answers, r) ← runSteps buf steps r
    return (answer :: answers, r)

end Steps

/-! ## §3 — one iterator.

The header of the array has been read, and the elements lie side by side behind it.  The invariant
has the number of elements passed, and both pointers follow from it. -/

/-- The iterator is over these places. -/
structure Walks (buf : Bytes) (itr : ArrayItr) (as : List Elem) : Prop where
  count : itr.elemCount = as.length
  short : as.length < 2 ^ 31
  chain : as ≠ [] → ∃ first xs q, itr.firstElem = some first ∧ Elements buf first xs q as

/-- ... and has passed so many of them.  A cleared iterator has passed all of none. -/
structure Stands (buf : Bytes) (itr : ArrayItr) (as : List Elem) (k : Nat) : Prop
    extends Walks buf itr as where
  le : k ≤ as.length
  index : itr.curIndex = (k : Int) - 1 ∨ as = [] ∧ itr.curIndex = 0
  cur : ∀ j a, k = j + 1 → as[j]? = some a → itr.elem = some a.elem ∧ itr.elemEnd = some a.elemEnd

def At (buf : Bytes) (itr : ArrayItr) (as : List Elem) : Option Nat → Prop
  | some k => Stands buf itr as k
  | none => Walks buf itr as

/-- An iterator that stands anywhere is over the places it walks. -/
theorem At.walks {buf : Bytes} {itr : ArrayItr} {as : List Elem} {k : Option Nat}
    (h : At buf itr as k) : Walks buf itr as := by
  cases k with
  | none => exact h
  | some k => exact h.toWalks

/-- A cleared iterator is over nothing.  Its index is 0 and not -1, but with no elements that makes
no difference. -/
theorem zeroItr_stands (buf : Bytes) : Stands buf zeroItr [] 0 where
  count := rfl
  short := by decide
  chain h := absurd rfl h
  le := Nat.le_refl 0
  index := .inr ⟨rfl, rfl⟩
  cur j a h := absurd h (by omega)

/-- Resetting starts over, from wherever.  An iterator need not stand anywhere for that. -/
theorem Walks.reset {buf : Bytes} {itr : ArrayItr} {as : List Elem} (h : Walks buf itr as) :
    Stands buf (tpArrayItrReset itr) as 0 where
  count := h.count
  short := h.short
  chain := h.chain
  le := Nat.zero_le _
  index := .inl rfl
  cur j a h := absurd h (by omega)

section Iterator

variable [Msgpuck] {buf : Bytes} {itr : ArrayItr} {as : List Elem} {k : Nat}

omit [Msgpuck] in
/-- The bound of the has-next functions. -/
theorem Stands.hasMore (h : Stands buf itr as k) :
    itr.hasMore = .ok (advance as.length (some k)).1 := by
  have hshort := h.short
  have hle := h.le
  have hcount := h.count
  have hanswer : (advance as.length (some k)).1 = decide (k < as.length) := by
    rw [advance]
    split_ifs with hlt
    · rw [decide_eq_true hlt]
    · rw [decide_eq_false hlt]
  rw [hanswer, ArrayItr.hasMore, hcount]
  rcases h.index with hindex | ⟨rfl, hindex⟩
  · rw [if_neg (by rw [hindex, intMax]; omega), hindex]
    congr 2
    have hmod : (((k : Int) - 1 + 1) % 2 ^ 32).toNat = k := by omega
    rw [hmod]
  · rw [if_neg (by rw [hindex, intMax]; omega), hindex]
    rfl

omit [Msgpuck] in
/-- Where the next item starts: the first one behind the header, the others behind the one before.
So the next element is found without going through those before it. -/
theorem Stands.pointer (h : Stands buf itr as k) (hlt : k < as.length) :
    (if (k : Int) = 0 then itr.firstElem else itr.elemEnd) = some as[k].elem := by
  have hne : as ≠ [] := List.ne_nil_of_length_pos (by omega)
  rcases h.chain hne with ⟨first, xs, q, hfirst, hchain⟩
  have hget : as[k]? = some as[k] := List.getElem?_eq_getElem hlt
  cases k with
  | zero => rw [if_pos Int.natCast_zero, hfirst, hchain.start_first hget]
  | succ k =>
    have hprev : as[k]? = some as[k] := List.getElem?_eq_getElem (by omega)
    rw [if_neg (by omega), (h.cur k as[k] rfl hprev).2, hchain.start_next hprev hget]

/-- **One call of `tp_array_itr_next`.**  It moves on by one, or says that there is none left. -/
theorem Stands.next (h : Stands buf itr as k) :
    ∃ itr', tpArrayItrNext buf itr = .ok ((advance as.length (some k)).1, itr') ∧
      At buf itr' as (advance as.length (some k)).2 := by
  have hshort := h.short
  have hle := h.le
  have hcount := h.count
  have hmax : ¬ itr.curIndex = intMax := by
    rcases h.index with hindex | ⟨-, hindex⟩
    · rw [hindex, intMax]
      omega
    · rw [hindex]
      decide
  rw [advance]
  split_ifs with hlt
  · -- before its first item the index is -1, in an empty array it may stay where it is
    have hindex : itr.curIndex + 1 = k := by
      rcases h.index with hindex | ⟨rfl, -⟩
      · omega
      · exact absurd hlt (Nat.not_lt_zero k)
    have hmod : ((k : Int) % 2 ^ 32).toNat = k := by omega
    have hafter : (k : Int) = ((k + 1 : Nat) : Int) - 1 := by omega
    have hne : as ≠ [] := List.ne_nil_of_length_pos (by omega)
    rcases h.chain hne with ⟨first, xs, q, hfirst, hchain⟩
    rcases hchain.item (List.getElem?_eq_getElem hlt) with ⟨v, hv⟩
    refine ⟨{ itr with curIndex := k, elem := some as[k].elem, elemEnd := some as[k].elemEnd }, ?_,
      ⟨hcount, hshort, h.chain⟩, hlt, .inl hafter, ?_⟩
    · simp only [tpArrayItrNext, if_neg hmax, hindex, hmod, hcount, if_neg (Nat.not_le_of_lt hlt),
        h.pointer hlt, Outcome.ofReader, Outcome.ok_bind, Delimits.next hv, Outcome.pure_eq]
    · -- the item it is on now
      intro j a hj ha
      obtain rfl : k = j := by omega
      rw [List.getElem?_eq_getElem hlt] at ha
      rw [← Option.some.inj ha]
      exact ⟨rfl, rfl⟩
  · -- behind the last: the index moves on, the pointers stay
    have hend : itr.elemCount ≤ ((itr.curIndex + 1) % 2 ^ 32).toNat := by
      rcases h.index with hindex | ⟨rfl, hindex⟩
      · omega
      · rw [hcount]
        exact Nat.zero_le _
    refine ⟨{ itr with curIndex := itr.curIndex + 1 }, ?_, ⟨hcount, hshort, h.chain⟩⟩
    simp only [tpArrayItrNext, if_neg hmax, if_pos hend, Outcome.pure_eq]

end Iterator

/-! ## §4 — the tuples of a response.

`IsRow` and `Rows` put the places of tuples and fields next to one another, as the values of the
data say.  An element that is not an array is a tuple without fields. -/

/-- A tuple of the response: its place and, if it is an array, those of its fields, from the header
to its end. -/
structure IsRow [Msgpuck] (buf : Bytes) (v : Value) (row : Row) : Prop where
  place : Delimits buf v row.place.elem row.place.elemEnd
  array : ∀ ys, v = .array ys → ∃ first, decodeArrayAt buf row.place.elem = .ok (ys.length, first) ∧
    Elements buf first ys row.place.elemEnd row.fields
  other : v.ty ≠ .array → row.fields = []

/-- The tuples, one beside the other from `p` to `q`. -/
def Rows [Msgpuck] (buf : Bytes) (p : Nat) (xs : List Value) (q : Nat) (rows : List Row) : Prop :=
  Chain (IsRow buf) (fun row => row.place.elem) (fun row => row.place.elemEnd) p xs q rows

section Arrays

variable [Msgpuck] {buf : Bytes}

/-- The header of an array and its elements.  Their places lie side by side, from the end of the
header to the end of the array. -/
theorem Delimits.array_elements {ys : List Value} {p q : Nat} (h : Delimits buf (.array ys) p q) :
    ∃ first as, decodeArrayAt buf p = .ok (ys.length, first) ∧ Elements buf first ys q as := by
  rcases h with ⟨pre, bs, rest, rfl, henc, rfl, rfl⟩
  rcases henc.array_cases with ⟨b, l, ds, body, rfl, hlead, hl, hbody⟩
  rcases elements_of_encodes hbody (pre ++ b :: ds) rest with ⟨as, has⟩
  have hdec : mpDecodeArray (b :: ds ++ body ++ rest) = some (ys.length, 1 + ds.length) :=
    (mpDecodeArray_iff _ _ _).mpr ⟨b, l, ds, body ++ rest, by simp, hlead, hl, rfl⟩
  refine ⟨(pre ++ b :: ds).length, as, ?_, ?_⟩
  · rw [decodeArrayAt, List.drop_left, hdec, List.length_append, List.length_cons,
      Nat.add_comm ds.length]
    rfl
  · have hmem : pre ++ (b :: ds ++ body ++ rest) = (pre ++ b :: ds) ++ (body ++ rest) := by
      simp only [List.append_assoc, List.cons_append]
    have hend : pre ++ (b :: ds ++ body) = (pre ++ b :: ds) ++ body := by
      simp only [List.append_assoc, List.cons_append]
    rw [hmem, hend]
    exact has

/-- `tp_array_itr_init` at an array. -/
theorem tpArrayItrInit_array {ys : List Value} {p q first : Nat} {as : List Elem}
    (h : Delimits buf (.array ys) p q) (hdec : decodeArrayAt buf p = .ok (ys.length, first))
    (has : Elements buf first ys q as) (hshort : ys.length < 2 ^ 31) :
    ∃ itr, tpArrayItrInit buf p (q - p) = .ok itr ∧ Stands buf itr as 0 := by
  have hlen := has.length_eq
  rcases h with ⟨pre, bs, rest, rfl, henc, rfl, rfl⟩
  have hpos := henc.length_pos
  have hsize : (pre ++ bs).length - pre.length = bs.length := by
    rw [List.length_append, Nat.add_sub_cancel_left]
  have htype : expectType (pre ++ (bs ++ rest)) pre.length .array = .ok () :=
    expectType_front pre rest henc
  have hcheck := mpCheck_front henc []
  rw [List.append_nil] at hcheck
  refine ⟨{ zeroItr with
    data := some pre.length, firstElem := some first, elemCount := ys.length, curIndex := -1 }, ?_,
    ⟨hlen.symm, by omega, fun _ => ⟨first, ys, _, rfl, has⟩⟩, Nat.zero_le _, .inl rfl, ?_⟩
  · rw [tpArrayItrInit, hsize, if_neg (by omega)]
    simp only [htype, Outcome.ok_bind, List.drop_left, List.take_left, hcheck, hdec, Outcome.pure_eq]
  · intro j a hj
    omega

/-- ... and anywhere else. -/
theorem tpArrayItrInit_other {v : Value} {p q : Nat} (h : Delimits buf v p q) (hty : v.ty ≠ .array) :
    tpArrayItrInit buf p (q - p) = .fail := by
  rcases h with ⟨pre, bs, rest, rfl, henc, rfl, rfl⟩
  have htype : typeAt (pre ++ (bs ++ rest)) pre.length = .ok v.ty := typeAt_front pre rest henc
  have hexpect : expectType (pre ++ (bs ++ rest)) pre.length .array = .fail := by
    rw [expectType, htype, Outcome.ok_bind, if_pos hty]
  rw [tpArrayItrInit, hexpect]
  split_ifs <;> rfl

/-- Every array of elements is one of tuples.  One that is no array has no fields. -/
theorem rows_of_elements {p q : Nat} {xs : List Value} {as : List Elem}
    (h : Elements buf p xs q as) : ∃ rows, Rows buf p xs q rows ∧ rows.map Row.place = as := by
  induction h with
  | nil => exact ⟨[], .nil, rfl⟩
  | @cons p v vs q a as hv hp hs ih =>
    rcases ih with ⟨rows, hrows, rfl⟩
    have hrow : ∃ fields, IsRow buf v ⟨a, fields⟩ := by
      by_cases hty : v.ty = .array
      · rcases Value.eq_array_of_ty hty with ⟨ys, rfl⟩
        rcases Delimits.array_elements hv with ⟨first, fields, hdec, hfields⟩
        refine ⟨fields, hv, ?_, fun hno => absurd hty hno⟩
        intro zs hzs
        cases hzs
        exact ⟨first, hdec, hfields⟩
      · refine ⟨[], hv, ?_, fun _ => rfl⟩
        rintro ys rfl
        exact absurd rfl hty
    rcases hrow with ⟨fields, hrow⟩
    exact ⟨⟨a, fields⟩ :: rows, .cons hrow hp hrows, rfl⟩

/-- The iterator that `tp_next` sets up. -/
theorem IsRow.fieldItr {v : Value} {row : Row} (h : IsRow buf v row)
    (hshort : row.fields.length < 2 ^ 31) :
    ∃ itr, fieldItrAt buf row.place.elem (row.place.elemEnd - row.place.elem) = .ok itr ∧
      Stands buf itr row.fields 0 := by
  by_cases hty : v.ty = .array
  · rcases Value.eq_array_of_ty hty with ⟨ys, rfl⟩
    rcases h.array ys rfl with ⟨first, hdec, hfields⟩
    have hlen := hfields.length_eq
    rcases tpArrayItrInit_array h.place hdec hfields (by omega) with ⟨itr, hinit, hstands⟩
    exact ⟨itr, by rw [fieldItrAt, hinit], hstands⟩
  · refine ⟨zeroItr, by rw [fieldItrAt, tpArrayItrInit_other h.place hty], ?_⟩
    rw [h.other hty]
    exact zeroItr_stands buf

end Arrays

/-! ## §5 — any order of steps.

One lemma for each kind of step, and the run is an induction on the steps.  The field iterator needs
most of it: it is made by a step of the other one. -/

/-- The two iterators stand where the position says. -/
structure Agrees (buf : Bytes) (rows : List Row) (r : TpResponse) (c : Position) : Prop where
  tuple : At buf r.tupleItr (rows.map Row.place) c.row
  field : At buf r.fieldItr (c.fields rows) c.col

/-- What `tp_next` needs of the tuples. -/
def Ready [Msgpuck] (buf : Bytes) (rows : List Row) : Prop :=
  ∀ row ∈ rows, ∃ itr, fieldItrAt buf row.place.elem (row.place.elemEnd - row.place.elem) = .ok itr ∧
    Stands buf itr row.fields 0

section Simulation

variable [Msgpuck] {buf : Bytes} {rows : List Row} {r : TpResponse} {c : Position}

/-- A step to the next tuple, or the end. -/
theorem Agrees.next (h : Agrees buf rows r c) (hready : Ready buf rows) {k : Nat}
    (hrow : c.row = some k) :
    ∃ r', tpNext buf r = .ok ((advance rows.length (some k)).1, r') ∧
      Agrees buf rows r' ⟨(advance rows.length (some k)).2, some 0⟩ := by
  have hat := h.tuple
  rw [hrow] at hat
  rcases Stands.next hat with ⟨itr, hnext, hitr⟩
  rw [List.length_map] at hnext hitr
  rw [advance] at hnext hitr ⊢
  split_ifs at hnext hitr ⊢ with hlt
  · have hplace : (rows.map Row.place)[k]? = some rows[k].place := by
      rw [List.getElem?_map, List.getElem?_eq_getElem hlt]
      rfl
    rcases hitr.cur k _ rfl hplace with ⟨helem, helemEnd⟩
    rcases hready rows[k] (List.getElem_mem hlt) with ⟨f, hf, hstands⟩
    refine ⟨{ r with tupleItr := itr, fieldItr := f }, ?_, hitr, ?_⟩
    · simp only [tpNext, hnext, Outcome.ok_bind, Bool.not_true, Bool.false_eq_true, if_false, helem,
        helemEnd, Outcome.ofReader, hf, Outcome.pure_eq]
    · show Stands buf f ((rows[k]?).elim [] Row.fields) 0
      rw [List.getElem?_eq_getElem hlt]
      exact hstands
  · refine ⟨{ r with tupleItr := itr, fieldItr := zeroItr }, ?_, hitr, zeroItr_stands buf⟩
    simp only [tpNext, hnext, Outcome.ok_bind, Bool.not_false, if_true, Outcome.pure_eq]

/-- A step to the next field, or the end. -/
theorem Agrees.nextfield (h : Agrees buf rows r c) {j : Nat} (hcol : c.col = some j) :
    ∃ r', tpNextfield buf r = .ok ((advance (c.fields rows).length (some j)).1, r') ∧
      Agrees buf rows r' ⟨c.row, (advance (c.fields rows).length (some j)).2⟩ := by
  have hat := h.field
  rw [hcol] at hat
  rcases Stands.next hat with ⟨itr, hnext, hitr⟩
  refine ⟨{ r with fieldItr := itr }, ?_, h.tuple, hitr⟩
  simp only [tpNextfield, hnext, Outcome.ok_bind, Outcome.pure_eq]

/-- **One step**, of whatever kind.  A step of the tuples makes a new iterator over the fields, or
clears it; a step of the fields leaves the other one alone. -/
theorem Agrees.step (h : Agrees buf rows r c) (hready : Ready buf rows) {s : Step}
    (hallowed : s.Allowed c) :
    ∃ r', s.run buf r = .ok ((c.step rows s).1, r') ∧ Agrees buf rows r' (c.step rows s).2 := by
  cases s with
  | next =>
    cases hrow : c.row with
    | none => exact absurd hrow hallowed
    | some k =>
      rcases h.next hready hrow with ⟨r', hok, hagrees⟩
      refine ⟨r', ?_, ?_⟩
      · simp only [Step.run, hok, Outcome.ok_bind, Outcome.pure_eq, Position.step, hrow]
      · simp only [Position.step, hrow]
        exact hagrees
  | nextfield =>
    cases hcol : c.col with
    | none => exact absurd hcol hallowed
    | some j =>
      rcases h.nextfield hcol with ⟨r', hok, hagrees⟩
      refine ⟨r', ?_, ?_⟩
      · simp only [Step.run, hok, Outcome.ok_bind, Outcome.pure_eq, Position.step, hcol]
      · simp only [Position.step, hcol]
        exact hagrees
  | rewind => exact ⟨tpRewind r, rfl, h.tuple.walks.reset, zeroItr_stands buf⟩
  | rewindfield => exact ⟨tpRewindfield r, rfl, h.tuple, h.field.walks.reset⟩

/-- **Any order of steps.**  A step that is not allowed any more is none of the run. -/
theorem Agrees.run (hready : Ready buf rows) {steps : List Step} (h : Agrees buf rows r c)
    (hlegal : c.Legal rows steps) :
    ∃ r', runSteps buf steps r = .ok ((c.run rows steps).1, r') ∧
      Agrees buf rows r' (c.run rows steps).2 := by
  induction steps generalizing r c with
  | nil => exact ⟨r, rfl, h⟩
  | cons s steps ih =>
    rcases h.step hready hlegal.1 with ⟨r₁, hstep, hagrees⟩
    rcases ih hagrees hlegal.2 with ⟨r', hrest, hagrees'⟩
    refine ⟨r', ?_, hagrees'⟩
    simp only [runSteps, hstep, hrest, Outcome.ok_bind, Outcome.pure_eq]
    rfl

end Simulation

/-! ## §6 — what is shown.

From the iterators back to what a caller sees: pointers, sizes, whether there is more, and what the
two nested loops go through. -/

/-- What the functions say at a position; the size of a field is a `uint32_t`.  The has-next
functions announce the answer of the next step. -/
structure Shows (rows : List Row) (c : Position) (r : TpResponse) : Prop where
  tuple : ∀ k row, c.row = some (k + 1) → rows[k]? = some row →
    tpGettuple r = some row.place.elem ∧ tpTupleend r = some row.place.elemEnd
  field : ∀ j f, c.col = some (j + 1) → (c.fields rows)[j]? = some f →
    tpGetfield r = some f.elem ∧ tpGetfieldsize r = (f.elemEnd - f.elem) % 2 ^ 32
  hasnext : c.row ≠ none → tpHasnext r = .ok (advance rows.length c.row).1
  hasnextfield : c.col ≠ none → tpHasnextfield r = .ok (advance (c.fields rows).length c.col).1

/-- The fields at a position are those of a tuple, or none. -/
theorem Position.fields_cases (rows : List Row) (c : Position) :
    c.fields rows = [] ∨ ∃ row ∈ rows, c.fields rows = row.fields := by
  unfold Position.fields
  split
  · next k _ =>
    cases hget : rows[k]? with
    | none => exact .inl rfl
    | some row => exact .inr ⟨row, List.mem_of_getElem? hget, rfl⟩
  · exact .inl rfl

/-- Where the iterators agree with a position, the functions show what is there. -/
theorem Agrees.shows {buf : Bytes} {rows : List Row} {r : TpResponse} {c : Position}
    (h : Agrees buf rows r c) : Shows rows c r where
  tuple k row hrow hget := by
    have hat := h.tuple
    rw [hrow] at hat
    apply hat.cur k row.place rfl
    rw [List.getElem?_map, hget]
    rfl
  field j f hcol hget := by
    have hat := h.field
    rw [hcol] at hat
    rcases hat.cur j f rfl hget with ⟨helem, helemEnd⟩
    exact ⟨helem, by simp only [tpGetfieldsize, helem, helemEnd]⟩
  hasnext hrow := by
    have hat := h.tuple
    cases hk : c.row with
    | none => exact absurd hk hrow
    | some k =>
      rw [hk] at hat
      have hmore := hat.hasMore
      rw [List.length_map] at hmore
      exact hmore
  hasnextfield hcol := by
    have hat := h.field
    cases hj : c.col with
    | none => exact absurd hj hcol
    | some j =>
      rw [hj] at hat
      exact hat.hasMore

/-- A field as a loop sees it. -/
def shownField (f : Elem) : Option Nat × Nat := (some f.elem, (f.elemEnd - f.elem) % 2 ^ 32)

/-- A tuple as a loop sees it, with its fields. -/
def Row.shown (row : Row) : (Option Nat × Option Nat) × List (Option Nat × Nat) :=
  ((some row.place.elem, some row.place.elemEnd), row.fields.map shownField)

section Loops

variable [Msgpuck] {buf : Bytes} {rows : List Row}

/-- The inner loop, from the field it has come to. -/
theorem fieldLoop_spec {r : TpResponse} {row : Option Nat} {j fuel : Nat}
    (h : Agrees buf rows r ⟨row, some j⟩)
    (hfuel : (Position.fields rows ⟨row, some j⟩).length < j + fuel) :
    ∃ r', fieldLoop buf fuel r =
        .ok (((Position.fields rows ⟨row, some j⟩).drop j).map shownField, r') ∧
      Agrees buf rows r' ⟨row, none⟩ := by
  induction fuel generalizing r j with
  | zero =>
    have hle : j ≤ (Position.fields rows ⟨row, some j⟩).length := h.field.le
    omega
  | succ fuel ih =>
    -- the fields are those of the row, wherever in it the cursor stands
    have hsame : ∀ col, Position.fields rows ⟨row, col⟩ = Position.fields rows ⟨row, none⟩ :=
      fun _ => rfl
    rcases h.nextfield rfl with ⟨r₁, hnext, hagrees⟩
    rw [hsame] at hfuel hnext hagrees ⊢
    rw [advance] at hnext hagrees
    -- `tp_nextfield` says whether there is a field at `j`; the loop stops where it says no
    by_cases hlt : j < (Position.fields rows ⟨row, none⟩).length
    · rw [if_pos hlt] at hnext hagrees
      rcases ih hagrees (by rw [hsame]; omega) with ⟨r', hloop, hagrees'⟩
      rcases hagrees.shows.field j _ rfl (List.getElem?_eq_getElem hlt) with ⟨helem, hsize⟩
      refine ⟨r', ?_, hagrees'⟩
      rw [hsame] at hloop
      rw [fieldLoop, List.drop_eq_getElem_cons hlt]
      simp only [hnext, Outcome.ok_bind, if_true, hloop, Outcome.pure_eq, helem, hsize, List.map_cons,
        shownField]
    · rw [if_neg hlt] at hnext hagrees
      refine ⟨r₁, ?_, hagrees⟩
      rw [fieldLoop, List.drop_eq_nil_of_le (Nat.le_of_not_lt hlt)]
      simp only [hnext, Outcome.ok_bind, Bool.false_eq_true, if_false, Outcome.pure_eq, List.map_nil]

/-- **The nested loop**, from the tuple it has come to.  An induction on the tuples that are left;
the inner loop starts at the first field of each and ends behind the last. -/
theorem tupleLoop_spec (hready : Ready buf rows) {inner : Nat}
    (hinner : ∀ row ∈ rows, row.fields.length < inner) {r : TpResponse} {col : Option Nat}
    {k fuel : Nat} (h : Agrees buf rows r ⟨some k, col⟩) (hfuel : rows.length < k + fuel) :
    ∃ r', tupleLoop buf inner fuel r = .ok ((rows.drop k).map Row.shown, r') := by
  induction fuel generalizing r col k with
  | zero =>
    have hle : k ≤ (rows.map Row.place).length := h.tuple.le
    rw [List.length_map] at hle
    omega
  | succ fuel ih =>
    rcases h.next hready rfl with ⟨r₁, hnext, hagrees⟩
    rw [advance] at hnext hagrees
    by_cases hlt : k < rows.length
    · rw [if_pos hlt] at hnext hagrees
      have hget : rows[k]? = some rows[k] := List.getElem?_eq_getElem hlt
      have hfields : Position.fields rows ⟨some (k + 1), some 0⟩ = rows[k].fields := by
        show (rows[k]?).elim [] Row.fields = rows[k].fields
        rw [hget]
        rfl
      have hshort := hinner rows[k] (List.getElem_mem hlt)
      -- `tp_next` has set up the iterator over the fields of the row
      rcases fieldLoop_spec hagrees (by rw [hfields]; omega : _ < 0 + inner) with
        ⟨r₂, hloop, hagrees₂⟩
      rw [hfields, List.drop_zero] at hloop
      rcases ih hagrees₂ (by omega) with ⟨r', hrest⟩
      rcases hagrees.shows.tuple k _ rfl hget with ⟨helem, helemEnd⟩
      refine ⟨r', ?_⟩
      rw [tupleLoop, List.drop_eq_getElem_cons hlt]
      simp only [hnext, Outcome.ok_bind, if_true, hloop, hrest, Outcome.pure_eq, helem, helemEnd,
        List.map_cons, Row.shown]
    · rw [if_neg hlt] at hnext
      refine ⟨r₁, ?_⟩
      rw [tupleLoop, List.drop_eq_nil_of_le (Nat.le_of_not_lt hlt)]
      simp only [hnext, Outcome.ok_bind, Bool.false_eq_true, if_false, Outcome.pure_eq, List.map_nil]

end Loops

/-! ## §7 — what `tp_reply` leaves.

For any bytes that `tp_reply` accepts.  No reader goes back, so the data is where the parse came by,
between the header and the end. -/

section Reply

variable [Msgpuck] {buf : Bytes}

omit [Msgpuck] in
/-- The readers do not go back. -/
theorem ofReader_le {α β : Type} {x : Option α} {f : α → β} {b : β} (g : β → Nat) {p : Nat}
    (hf : ∀ a, p ≤ g (f a)) (h : Outcome.ofReader (x.map f) = .ok b) : p ≤ g b := by
  cases x with
  | none => cases h
  | some a =>
    cases h
    exact hf a

/-- No reader goes back: of a number, ... -/
theorem decodeUintAt_le {p n q : Nat} (h : decodeUintAt buf p = .ok (n, q)) : p ≤ q :=
  ofReader_le Prod.snd (fun _ => Nat.le_add_right _ _) h

/-- ... of a map, ... -/
theorem decodeMapAt_le {p n q : Nat} (h : decodeMapAt buf p = .ok (n, q)) : p ≤ q :=
  ofReader_le Prod.snd (fun _ => Nat.le_add_right _ _) h

/-- ... of a text, ... -/
theorem decodeStrAt_le {p n q : Nat} (h : decodeStrAt buf p = .ok (n, q)) : p ≤ q :=
  ofReader_le Prod.snd (fun x => show p ≤ p + x.2 + x.1 by omega) h

/-- ... or of any value. -/
theorem nextAt_le {p q : Nat} (h : nextAt buf p = .ok q) : p ≤ q :=
  ofReader_le id (fun _ => Nat.le_add_right _ _) h

/-- The data, if there are some, lie between `lo` and `p`. -/
def DataWithin (lo : Nat) (r : TpResponse) (p : Nat) : Prop :=
  ∀ span, r.data = some span → lo ≤ span.first ∧ span.last ≤ p

/-- A pair of the header changes neither data nor iterators, ... -/
theorem headerStep_keeps {key p q : Nat} {r r' : TpResponse}
    (h : headerStep buf key p r = .ok (r', q)) :
    p ≤ q ∧ r'.data = r.data ∧ r'.fieldItr = r.fieldItr := by
  unfold headerStep at h
  split_ifs at h
  · rcases Outcome.bind_eq_ok.mp h with ⟨_, -, h⟩
    rcases Outcome.bind_eq_ok.mp h with ⟨⟨v, p'⟩, hdec, h⟩
    cases h
    exact ⟨decodeUintAt_le hdec, rfl, rfl⟩
  · rcases Outcome.bind_eq_ok.mp h with ⟨_, -, h⟩
    rcases Outcome.bind_eq_ok.mp h with ⟨⟨v, p'⟩, hdec, h⟩
    cases h
    exact ⟨decodeUintAt_le hdec, rfl, rfl⟩
  · rcases Outcome.bind_eq_ok.mp h with ⟨p', hnext, h⟩
    cases h
    exact ⟨nextAt_le hnext, rfl, rfl⟩

/-- ... and so do all. -/
theorem headerLoop_keeps {n p q : Nat} {r r' : TpResponse} (h : headerLoop buf n p r = .ok (r', q)) :
    p ≤ q ∧ r'.data = r.data ∧ r'.fieldItr = r.fieldItr := by
  induction n generalizing p r with
  | zero =>
    cases h
    exact ⟨Nat.le_refl _, rfl, rfl⟩
  | succ n ih =>
    rcases Outcome.bind_eq_ok.mp h with ⟨_, -, h⟩
    rcases Outcome.bind_eq_ok.mp h with ⟨⟨num, p₁⟩, hdec, h⟩
    rcases Outcome.bind_eq_ok.mp h with ⟨_, -, h⟩
    rcases Outcome.bind_eq_ok.mp h with ⟨⟨r₁, p₂⟩, hstep, h⟩
    have hfirst := decodeUintAt_le hdec
    rcases headerStep_keeps hstep with ⟨hsnd, hdata, hitr⟩
    rcases ih h with ⟨hrest, hdata', hitr'⟩
    exact ⟨by omega, hdata'.trans hdata, hitr'.trans hitr⟩

/-- A pair of the body may be the data, which lie where it does, ... -/
theorem responseStep_keeps {lo key p q : Nat} {r r' : TpResponse} (hlo : lo ≤ p)
    (hwithin : DataWithin lo r p) (h : responseStep buf key p r = .ok (r', q)) :
    p ≤ q ∧ DataWithin lo r' q ∧ r'.fieldItr = r.fieldItr := by
  unfold responseStep at h
  split_ifs at h
  · rcases Outcome.bind_eq_ok.mp h with ⟨_, -, h⟩
    rcases Outcome.bind_eq_ok.mp h with ⟨⟨first, p'⟩, hdec, h⟩
    cases h
    have hle := decodeStrAt_le hdec
    refine ⟨hle, fun span hspan => ?_, rfl⟩
    rcases hwithin span hspan with ⟨hfirst, hlast⟩
    exact ⟨hfirst, by omega⟩
  · rcases Outcome.bind_eq_ok.mp h with ⟨_, -, h⟩
    rcases Outcome.bind_eq_ok.mp h with ⟨p', hnext, h⟩
    cases h
    refine ⟨nextAt_le hnext, fun span hspan => ?_, rfl⟩
    cases hspan
    exact ⟨hlo, Nat.le_refl _⟩
  · rcases Outcome.bind_eq_ok.mp h with ⟨p', hnext, h⟩
    cases h
    have hle := nextAt_le hnext
    refine ⟨hle, fun span hspan => ?_, rfl⟩
    rcases hwithin span hspan with ⟨hfirst, hlast⟩
    exact ⟨hfirst, by omega⟩

/-- ... and so behind the last pair. -/
theorem responseLoop_keeps {lo n p q : Nat} {r r' : TpResponse} (hlo : lo ≤ p)
    (hwithin : DataWithin lo r p) (h : responseLoop buf n p r = .ok (r', q)) :
    p ≤ q ∧ DataWithin lo r' q ∧ r'.fieldItr = r.fieldItr := by
  induction n generalizing p r with
  | zero =>
    cases h
    exact ⟨Nat.le_refl _, hwithin, rfl⟩
  | succ n ih =>
    rcases Outcome.bind_eq_ok.mp h with ⟨⟨num, p₁⟩, hdec, h⟩
    rcases Outcome.bind_eq_ok.mp h with ⟨⟨r₁, p₂⟩, hstep, h⟩
    have hfirst := decodeUintAt_le hdec
    have hwithin₁ : DataWithin lo r p₁ := by
      intro span hspan
      rcases hwithin span hspan with ⟨hspan₁, hlast⟩
      exact ⟨hspan₁, by omega⟩
    rcases responseStep_keeps (by omega) hwithin₁ hstep with ⟨hsnd, hwithin₂, hitr⟩
    have hturn : DataWithin lo { r₁ with bitmap := setBit r₁.bitmap (num % 2 ^ 32) } p₂ := hwithin₂
    rcases ih (by omega) hturn h with ⟨hrest, hwithin', hitr'⟩
    exact ⟨by omega, hwithin', hitr'.trans hitr⟩

/-- The header of a map is in front of its pairs. -/
theorem openMap_le {p n q : Nat} (h : openMap buf p = .ok (n, q)) : p ≤ q := by
  unfold openMap at h
  split at h
  · cases h
  · rcases Outcome.bind_eq_ok.mp h with ⟨_, -, h⟩
    exact decodeMapAt_le h

/-- The iterator over the data, if there are some. -/
theorem finish_leaves {n p : Nat} {start r : TpResponse} {span : Span}
    (h : finish buf start p = .ok (n, r)) (hdata : r.data = some span) :
    tpArrayItrInit buf span.first (span.last - span.first) = .ok r.tupleItr ∧ start.data = some span ∧
      r.fieldItr = start.fieldItr ∧ n = p := by
  unfold finish at h
  split at h
  · next hnone =>
    cases h
    exact absurd (hnone.symm.trans hdata) (by simp)
  · next data hsome =>
    rcases Outcome.bind_eq_ok.mp h with ⟨itr, hinit, h⟩
    cases h
    have hsame : data = span := Option.some.inj (hsome.symm.trans hdata)
    rw [hsame] at hinit hsome
    exact ⟨hinit, hsome, rfl, rfl⟩

/-- At the end the iterator is made of the data. -/
theorem afterHeader_leaves {n p : Nat} {start r : TpResponse} {span : Span}
    (h : afterHeader buf start p = .ok (n, r)) (hstart : start.data = none)
    (hdata : r.data = some span) :
    tpArrayItrInit buf span.first (span.last - span.first) = .ok r.tupleItr ∧
      r.fieldItr = start.fieldItr ∧ p ≤ span.first ∧ span.last ≤ n := by
  rcases Outcome.bind_eq_ok.mp h with ⟨⟨count, p₁⟩, hopen, h⟩
  rcases Outcome.bind_eq_ok.mp h with ⟨⟨r₁, p₂⟩, hloop, h⟩
  have hle := openMap_le hopen
  have hnone : DataWithin p start p₁ := by
    intro span hspan
    rw [hstart] at hspan
    cases hspan
  rcases responseLoop_keeps hle hnone hloop with ⟨-, hwithin, hitr⟩
  rcases finish_leaves h hdata with ⟨hinit, hdata₁, hitr₁, rfl⟩
  rcases hwithin span hdata₁ with ⟨hfirst, hlast⟩
  exact ⟨hinit, hitr₁.trans hitr, hfirst, hlast⟩

/-- The length in front of the response is one of five bytes, and right. -/
def Whole (buf : Bytes) (n : Nat) : Prop :=
  ∃ len, decodeUintAt buf 0 = .ok (len, 5) ∧ len < 2 ^ 32 ∧ n = len + 5

/-- **What `tp_reply` leaves**: the iterator over the data, and a cleared one. -/
theorem tpReply_leaves {n : Nat} {r : TpResponse} (h : tpReply buf = .ok (n, r)) {span : Span}
    (hdata : r.data = some span) :
    tpArrayItrInit buf span.first (span.last - span.first) = .ok r.tupleItr ∧
      r.fieldItr = zeroItr ∧ (Whole buf n → span.last - span.first < 2 ^ 32) := by
  -- one step of the function after another; the early returns leave no data
  unfold tpReply at h
  split_ifs at h
  · cases h
    cases hdata
  split at h
  · cases h
  rcases Outcome.bind_eq_ok.mp h with ⟨_, -, h⟩
  rcases Outcome.bind_eq_ok.mp h with ⟨⟨num, p⟩, hlen, h⟩
  dsimp only at h
  split_ifs at h
  · cases h
    cases hdata
  rcases Outcome.bind_eq_ok.mp h with ⟨⟨count, p₁⟩, hopen, h⟩
  rcases Outcome.bind_eq_ok.mp h with ⟨⟨r₁, p₂⟩, hloop, h⟩
  rcases headerLoop_keeps hloop with ⟨hle, hnone, hitr⟩
  dsimp only at h
  split_ifs at h
  · -- no body
    cases h
    rw [hnone] at hdata
    cases hdata
  · rcases afterHeader_leaves h hnone hdata with ⟨hinit, hitr', hfirst, hlast⟩
    refine ⟨hinit, hitr'.trans hitr, ?_⟩
    rintro ⟨len, hdec, hlt, hn⟩
    -- the data starts behind the length and the header, and ends within the response
    have hopened := openMap_le hopen
    have hfive : p = 5 := by
      have hpair := Outcome.ok.inj (hlen.symm.trans hdec)
      exact congrArg Prod.snd hpair
    omega

/-! ## §8 — every field once.

The parts put together: the response, its rows, the agreement at the start, and any steps from
there. -/

omit [Msgpuck] in
/-- A value ends behind its start, ... -/
theorem delimits_le {v : Value} {p q : Nat} (h : Delimits buf v p q) : p ≤ q := by
  rcases h with ⟨pre, bs, rest, -, -, rfl, rfl⟩
  rw [List.length_append]
  exact Nat.le_add_right _ _

/-- ... the fields of a tuple lie inside it, ... -/
theorem IsRow.fields_within {v : Value} {row : Row} (h : IsRow buf v row) :
    ∀ f ∈ row.fields, row.place.elem ≤ f.elem ∧ f.elemEnd ≤ row.place.elemEnd := by
  by_cases hty : v.ty = .array
  · rcases Value.eq_array_of_ty hty with ⟨ys, rfl⟩
    rcases h.array ys rfl with ⟨first, hdec, hfields⟩
    have hfirst : row.place.elem ≤ first :=
      ofReader_le Prod.snd (fun _ => Nat.le_add_right _ _) hdec
    intro f hf
    rcases (hfields.within fun v a hv => delimits_le hv).2 f hf with ⟨hstart, hend⟩
    exact ⟨by omega, hend⟩
  · rw [h.other hty]
    intro f hf
    exact absurd hf List.not_mem_nil

/-- The tuples of an array that is short enough. -/
theorem rows_ready {p q : Nat} {xs : List Value} {rows : List Row} (h : Rows buf p xs q rows)
    (hfields : ∀ ys, Value.array ys ∈ xs → ys.length < 2 ^ 31) :
    Ready buf rows ∧ ∀ row ∈ rows, row.fields.length < 2 ^ 31 := by
  have hshort : ∀ row ∈ rows, row.fields.length < 2 ^ 31 := by
    intro row hrow
    rcases h.mem hrow with ⟨v, hv, hrow⟩
    by_cases hty : v.ty = .array
    · rcases Value.eq_array_of_ty hty with ⟨ys, rfl⟩
      rcases hrow.array ys rfl with ⟨first, -, hys⟩
      rw [hys.length_eq]
      exact hfields ys hv
    · rw [hrow.other hty]
      decide
  refine ⟨fun row hrow => ?_, hshort⟩
  rcases h.mem hrow with ⟨v, -, hv⟩
  exact hv.fieldItr (hshort row hrow)

/-- ... and are as small as the data. -/
theorem rows_small {p q : Nat} {xs : List Value} {rows : List Row} (h : Rows buf p xs q rows)
    (hsize : q - p < 2 ^ 32) : ∀ row ∈ rows, ∀ f ∈ row.fields, f.elemEnd - f.elem < 2 ^ 32 := by
  intro row hrow f hf
  rcases h.mem hrow with ⟨v, -, hv⟩
  rcases (h.within fun v row hrow => delimits_le hrow.place).2 row hrow with ⟨hstart, hend⟩
  rcases hv.fields_within f hf with ⟨hstart', hend'⟩
  omega

/-- **Every field once.**  In a response that `tp_reply` has parsed, and whose data is an array of
fewer than `2^31` values, the arrays among them with fewer than `2^31` elements: there are tuples,
one beside the other from the header of the data to its end, each with its fields from its header to
its end if it is an array and with none if it is not.  After any legal order of steps every step has
answered, and every function says, what the position asks for; the rest of the fields is what the
inner loop sees, and from the start, where a rewind leads from anywhere, the nested loop sees every
tuple and every field once.  Where the length of the response is right, every size fits.  Legal is
an order of steps in which no step goes beyond an end that was reported; beyond it the index of an
iterator runs on, up to where it overflows.  The position is kept by each kind of step, and the
loops of the caller are runs of steps. -/
theorem tuples_visited {n : Nat} {r : TpResponse} (h : tpReply buf = .ok (n, r)) {span : Span}
    (hdata : r.data = some span) {xs : List Value}
    (hxs : Delimits buf (.array xs) span.first span.last) (hshort : xs.length < 2 ^ 31)
    (hfields : ∀ ys, Value.array ys ∈ xs → ys.length < 2 ^ 31) :
    ∃ first rows, decodeArrayAt buf span.first = .ok (xs.length, first) ∧
      Rows buf first xs span.last rows ∧
      (Whole buf n → ∀ row ∈ rows, ∀ f ∈ row.fields, f.elemEnd - f.elem < 2 ^ 32) ∧
      ∀ steps, Position.start.Legal rows steps → ∃ r',
        runSteps buf steps r = .ok ((Position.start.run rows steps).1, r') ∧
        Shows rows (Position.start.run rows steps).2 r' ∧
        (∀ j, (Position.start.run rows steps).2.col = some j → ∃ last, fieldLoop buf (2 ^ 31) r' =
          .ok ((((Position.start.run rows steps).2.fields rows).drop j).map shownField, last)) ∧
        ((Position.start.run rows steps).2 = Position.start → ∃ last,
          tupleLoop buf (2 ^ 31) (2 ^ 31) r' = .ok (rows.map Row.shown, last)) := by
  rcases tpReply_leaves h hdata with ⟨hinit, hcleared, hsize⟩
  rcases Delimits.array_elements hxs with ⟨first, as, hdec, has⟩
  rcases rows_of_elements has with ⟨rows, hrows, rfl⟩
  rcases tpArrayItrInit_array hxs hdec has hshort with ⟨itr, hitr, hstands⟩
  have hsame : r.tupleItr = itr := Outcome.ok.inj (hinit.symm.trans hitr)
  have hfirst : span.first ≤ first := ofReader_le Prod.snd (fun _ => Nat.le_add_right _ _) hdec
  rcases rows_ready hrows hfields with ⟨hready, hinner⟩
  have hlen : rows.length = xs.length := hrows.length_eq
  -- at the start the iterator over the tuples is before the first, the other one is cleared
  have hstart : Agrees buf rows r Position.start := by
    refine ⟨?_, ?_⟩
    · rw [hsame]
      exact hstands
    · rw [hcleared]
      exact zeroItr_stands buf
  refine ⟨first, rows, hdec, hrows, fun hwhole => ?_, fun steps hlegal => ?_⟩
  · have hall := hsize hwhole
    exact rows_small hrows (by omega)
  rcases hstart.run hready hlegal with ⟨r', hrun, hagrees⟩
  refine ⟨r', hrun, hagrees.shows, ?_, ?_⟩
  · intro j hcol
    -- the rest of the fields of the current row
    set c := (Position.start.run rows steps).2 with hc
    have hpos : c = ⟨c.row, some j⟩ := by rw [← hcol]
    have hfew : (c.fields rows).length < 2 ^ 31 := by
      rcases c.fields_cases rows with hnone | ⟨row, hrow, heq⟩
      · rw [hnone]
        decide
      · rw [heq]
        exact hinner row hrow
    rw [hpos] at hagrees hfew ⊢
    rcases fieldLoop_spec hagrees (by omega : _ < j + 2 ^ 31) with ⟨last, hloop, -⟩
    exact ⟨last, hloop⟩
  · intro hpos
    rw [hpos] at hagrees
    -- all tuples, from the start
    have hloop := tupleLoop_spec hready hinner hagrees (by omega : rows.length < 0 + 2 ^ 31)
    rwa [List.drop_zero] at hloop

end Reply

/-- A response with the data `[[7, 8], 9]`. -/
def tuplesBuf : Bytes := [0xce, 0, 0, 0, 10, 0x81, 0, 0, 0x81, 0x30, 0x92, 0x92, 7, 8, 9]

/-- ... parsed. -/
def tuplesResponse : TpResponse where
  bitmap := some 0x1000000000001
  code := 0
  sync := 0
  error := none
  data := some ⟨10, 15⟩
  tupleItr := ⟨some 10, some 11, none, none, 2, -1⟩
  fieldItr := zeroItr

/-- A loop over the response, a rewind, and the loop again. -/
theorem tuples_visited_twice :
    let _ := Msgpuck.reference
    tpReply tuplesBuf = .ok (15, tuplesResponse) ∧
      ∃ rows r' last, Rows tuplesBuf 11 [.array [.uint 7, .uint 8], .uint 9] 15 rows ∧
        runSteps tuplesBuf [.next, .nextfield, .rewindfield, .nextfield, .rewind] tuplesResponse =
          .ok ([some true, some true, none, some true, none], r') ∧
        tupleLoop tuplesBuf (2 ^ 31) (2 ^ 31) r' = .ok (rows.map Row.shown, last) := by
  intro _
  have hreply : tpReply tuplesBuf = .ok (15, tuplesResponse) := by decide +kernel
  have henc : Encodes (.array [.array [.uint 7, .uint 8], .uint 9]) [0x92, 0x92, 7, 8, 9] :=
    encodes_encodeWith packed_sound (.array [.array [.uint 7, .uint 8], .uint 9])
      (by simp [Value.Fits, FitsAll])
  have hxs : Delimits tuplesBuf (.array [.array [.uint 7, .uint 8], .uint 9]) 10 15 :=
    ⟨tuplesBuf.take 10, _, [], rfl, henc, rfl, rfl⟩
  have hfields : ∀ ys, Value.array ys ∈ [Value.array [.uint 7, .uint 8], .uint 9] →
      ys.length < 2 ^ 31 := by
    intro ys hys
    simp only [List.mem_cons, Value.array.injEq, reduceCtorEq, List.not_mem_nil, or_false] at hys
    rw [hys]
    decide
  rcases tuples_visited hreply rfl hxs (by decide) hfields with
    ⟨first, rows, hdec, hrows, -, hruns⟩
  have hfirst : first = 11 := by
    have hread : decodeArrayAt tuplesBuf 10 = .ok (2, 11) := by decide +kernel
    exact congrArg Prod.snd (Outcome.ok.inj (hdec.symm.trans hread))
  rw [hfirst] at hrows
  have hall := hrows
  refine ⟨hreply, rows, ?_⟩
  -- two rows, of which the first is an array of two
  cases hrows with
  | @cons _ _ _ _ a others hv hp hs =>
    rcases List.length_eq_one_iff.mp hs.length_eq with ⟨b, rfl⟩
    rcases hv.array _ rfl with ⟨_, -, hys⟩
    have htwo : a.fields.length = 2 := hys.length_eq
    let steps : List Step := [.next, .nextfield, .rewindfield, .nextfield, .rewind]
    have hlegal : Position.start.Legal [a, b] steps := by
      simp [steps, Position.Legal, Step.Allowed, Position.step, Position.start, advance,
        Position.fields, htwo]
    have hanswers : Position.start.run [a, b] steps =
        ([some true, some true, none, some true, none], Position.start) := by
      simp [steps, Position.run, Position.step, Position.start, advance, Position.fields, htwo]
    rcases hruns steps hlegal with ⟨r', hrun, -, -, hloops⟩
    rw [hanswers] at hrun hloops
    rcases hloops rfl with ⟨last, hloop⟩
    exact ⟨r', last, hall, hrun, hloop⟩

end TarantoolC.Tp
