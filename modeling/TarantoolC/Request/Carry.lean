/-
# TarantoolC.Request.Carry — a compiled request carries what was set.

`Setter.field` says which pair of the body a setter is for, on a request of a type, and
`Setter.Says` the value it sets; both are read off the header file.  `Exact` compares a body with a
sequence of setter calls: a pair holds what the last call for it has set, and is absent only where
that is 0 or where nothing was set.

`tntRequestWriteout_exact_iff`: compiling succeeds and the body is exact if and only if the index
base of an update or upsert is below `2^31`.  It is handed over as `uint32_t`, stored as `int` and
encoded as `uint64_t`.

## Where the two sides meet

`Setter.Says` speaks of calls and `TntRequest.fields` of slots.  They meet in an `Entry`: a pair
that may be written, with the condition it is written under, the bytes, and the value these stand
for.  `TntRequest.entries` lists the eight of a request in the order of the source, and everything
else is read off that list:

* its written part is `TntRequest.fields` (`TntRequest.fields_entries`), so its bytes are the
  compiled body;
* its read part has each key once (`TntRequest.entries_nodup`), so looking a key up finds the one
  entry for it (`entries_num`, `entries_slot`);
* a slot holds what the last call for its pair has written (`lastSet_get`), so the entry's value is
  what was set.

Only the index base breaks the last step.  `(uint64_t)` of a negative `int` fills the upper half
with ones, and the server reads a number above `2^63`; `body_exact_iff` has this as the one
condition, and needs no other.
-/
import TarantoolC.Request.Agree

namespace TarantoolC.Request

open MsgPack Msgpuck Proto Object

/-! ## §1 — what setters are for. -/

/-- The pairs a request of a type may have.  This is what the protocol has for it; for most pairs
`tnt_request_writeout` tests the type. -/
def carries (tp : RequestType) : BodyKey → Bool
  | .space => tp ∈ [.select, .insert, .replace, .update, .delete, .upsert]
  | .index => tp ∈ [.select, .update, .delete]
  | .limit | .offset | .iterator => tp = .select
  | .indexBase => tp ∈ [.update, .upsert]
  | .key => tp ∈ [.select, .update, .delete]
  | .tuple => tp ∈ [.insert, .replace, .update, .upsert, .call, .call16, .eval]
  | .function => tp ∈ [.call, .call16]
  | .expression => tp = .eval
  | .ops => tp = .upsert
  | _ => false

/-- The pair a setter names; the operations of an update go by the name of the tuple.  Whether the
type has that pair is another question (`carries`). -/
def Setter.pair (tp : RequestType) : Setter → BodyKey
  | .space _ => .space
  | .index _ => .index
  | .offset _ => .offset
  | .limit _ => .limit
  | .iterator _ => .iterator
  | .indexBase _ => .indexBase
  | .key _ => .key
  | .func _ | .funcz _ => .function
  | .expr _ | .exprz _ => .expression
  | .ops _ => if tp = .update then .tuple else .ops
  | .tuple _ => .tuple

/-- The pair a setter is for; `none` if it is not meant for the type. -/
def Setter.field (tp : RequestType) (s : Setter) : Option BodyKey :=
  if carries tp (s.pair tp) then some (s.pair tp) else none

/-- The value a setter sets: its number, its text, or the value its object encodes. -/
def Setter.Says : Setter → Value → Prop
  | .space n, v | .index n, v | .offset n, v | .limit n, v | .iterator n, v | .indexBase n, v =>
    v = .uint n.toNat
  | .key s, v | .ops s, v | .tuple s, v => Encodes v s.bytes
  | .func text, v | .expr text, v => ∃ t, text = some t ∧ v = .str t.bytes
  | .funcz text, v | .exprz text, v => ∃ t, text = some t ∧ t.length < 2 ^ 32 ∧ v = .str t

/-- A setter that is meant for the type, with a valid argument. -/
def Setter.Meant (tp : RequestType) (s : Setter) : Prop := s.field tp ≠ none ∧ ∃ v, s.Says v

/-- The last call for a pair. -/
def lastSet (tp : RequestType) (l : List Setter) (k : BodyKey) : Option Setter :=
  (l.filter fun s => s.field tp = some k).getLast?

/-- What the constructor presets, of the pairs that are always written. -/
def preset : BodyKey → Option Value
  | .space => some (.uint 0)
  | .limit => some (.uint 0xffffffff)
  | _ => none

/-- What a body has for a pair is what the calls have set. -/
def Shown (tp : RequestType) (l : List Setter) (k : BodyKey) (found : Option Value) : Prop :=
  match lastSet tp l k with
  | some s => (∀ v, found = some v → s.Says v) ∧ (found = none → s.Says (.uint 0))
  | none => ∀ v, found = some v → preset k = some v

/-- **The body says what was set**, in every pair, once. -/
def Exact (tp : RequestType) (l : List Setter) (pairs : List (BodyKey × Value)) : Prop :=
  (pairs.map Prod.fst).Nodup ∧ ∀ k, Shown tp l k (pairs.lookup k)

/-- The last index base of an update or upsert is a non-negative `int`. -/
def IndexBaseFits (tp : RequestType) (l : List Setter) : Prop :=
  ∀ n, lastSet tp l .indexBase = some (.indexBase n) → n.toNat < 2 ^ 31

/-! ## §2 — the slots behind the pairs. -/

/-- Where a request keeps a pair.  Four pairs share the slot of the key; which of them it is says
the type. -/
def slotOf : BodyKey → Option Slot
  | .space => some .space
  | .index => some .index
  | .limit => some .limit
  | .offset => some .offset
  | .iterator => some .iterator
  | .indexBase => some .indexBase
  | .key | .function | .expression | .ops => some .key
  | .tuple => some .tuple
  | _ => none

/-- A setter that is for a pair names it.  It names it whatever the request, and the type has it. -/
theorem Setter.field_eq {tp : RequestType} {s : Setter} {k : BodyKey} (h : s.field tp = some k) :
    s.pair tp = k ∧ carries tp k = true := by
  unfold Setter.field at h
  split at h
  · next hc =>
    obtain rfl := Option.some.inj h
    exact ⟨rfl, hc⟩
  · exact absurd h (by simp)

/-- A setter writes the slot of its pair.  Pairs and slots are not the same, so this is where a
statement about pairs becomes one about slots. -/
theorem Setter.Meant.slot {tp : RequestType} {s : Setter} (h : s.Meant tp) {k : BodyKey}
    (hk : s.field tp = some k) : s.slot tp = slotOf k := by
  obtain ⟨rfl, hc⟩ := Setter.field_eq hk
  obtain ⟨-, v, hword⟩ := h
  cases s with
  | func text | funcz text =>
    obtain ⟨t, rfl, -⟩ := hword
    have hcall : isCall tp = true := by cases tp <;> simp_all [carries, Setter.pair, isCall]
    simp [Setter.slot, Setter.pair, slotOf, hcall]
  | expr text | exprz text =>
    obtain ⟨t, rfl, -⟩ := hword
    have heval : tp = .eval := by simpa [carries, Setter.pair] using hc
    simp [Setter.slot, Setter.pair, slotOf, heval]
  | ops s =>
    by_cases hu : tp = .update
    · simp [Setter.slot, Setter.pair, slotOf, hu]
    · have hp : tp = .upsert := by simpa [carries, Setter.pair, hu] using hc
      simp [Setter.slot, Setter.pair, slotOf, hp]
  | _ => rfl

/-- No two pairs of a type share a slot. -/
theorem slotOf_inj {tp : RequestType} {j k : BodyKey} (hj : carries tp j = true)
    (hk : carries tp k = true) (h : slotOf j = slotOf k) : j = k := by
  cases j <;> cases k <;> first
    | rfl
    | exact absurd h (by decide)
    | (cases tp <;> simp [carries] at hj hk)

/-- The last call for a pair is among the calls. -/
theorem lastSet_some {tp : RequestType} {l : List Setter} {k : BodyKey} {s : Setter}
    (h : lastSet tp l k = some s) : s ∈ l ∧ s.field tp = some k := by
  have hmem := List.mem_of_getLast? h
  rw [List.mem_filter] at hmem
  exact ⟨hmem.1, by simpa using hmem.2⟩

/-- No call is for a pair the type does not have. -/
theorem lastSet_none {tp : RequestType} {l : List Setter} {k : BodyKey}
    (h : ¬ carries tp k = true) : lastSet tp l k = none := by
  cases hl : lastSet tp l k with
  | none => rfl
  | some s => exact absurd (Setter.field_eq (lastSet_some hl).2).2 h

/-- **A pair's slot holds what the last call for the pair wrote**, or what the constructor left.
From here on a request is known by the last calls for its pairs. -/
theorem lastSet_get {tp : RequestType} {l : List Setter} (hl : ∀ s ∈ l, s.Meant tp) {k : BodyKey}
    (hk : carries tp k = true) {σ : Slot} (hσ : slotOf k = some σ) :
    (runSetters l (tntRequestNew tp)).2.get σ =
      match lastSet tp l k with
      | some s => s.val
      | none => (tntRequestNew tp).get σ := by
  have hsame : (l.filter fun s => s.slot tp = some σ) = l.filter fun s => s.field tp = some k := by
    apply List.filter_congr
    intro s hs
    apply decide_eq_decide.mpr
    constructor
    · intro hslot
      obtain ⟨j, hj⟩ := Option.ne_none_iff_exists'.mp (hl s hs).1
      have hj' := (hl s hs).slot hj
      rw [hslot, ← hσ] at hj'
      rw [hj, slotOf_inj hk (Setter.field_eq hj).2 hj']
    · intro hfield
      rw [(hl s hs).slot hfield, hσ]
  rw [runSetters_last, show (tntRequestNew tp).type = tp from rfl, hsame]
  rfl

/-! ## §3 — pairs that say what was set. -/

section Shown

variable {tp : RequestType} {l : List Setter} (hl : ∀ s ∈ l, s.Meant tp)

/-- A pair the type does not have is rightly absent. -/
theorem shown_absent {k : BodyKey} (hk : ¬ carries tp k = true) : Shown tp l k none := by
  rw [Shown, lastSet_none hk]
  intro v hv
  exact absurd hv (by simp)

/-- A setter of a number, other than the index base, keeps it.  They are `uint32_t` in the setter
and in the request, so nothing is cut off. -/
theorem Setter.val_num {s : Setter} {k : BodyKey} (h : s.pair tp = k)
    (hk : k ∈ [.space, .index, .limit, .offset, .iterator]) :
    ∃ n, s.val = .num n ∧ ∀ v, s.Says v ↔ v = .uint n.toNat := by
  cases s with
  | space n | index n | offset n | limit n | iterator n => exact ⟨n, rfl, fun _ => Iff.rfl⟩
  | ops s =>
    simp only [Setter.pair] at h
    split at h
    · subst h; simp at hk
    · subst h; simp at hk
  | _ =>
    simp only [Setter.pair] at h
    subst h
    simp at hk

include hl in
/-- A number, written always or only where it is not 0.  A number that is 0 may be left out because
0 is what the constructor presets and what a server takes if the pair is missing. -/
theorem shown_num {k : BodyKey} (hk : k ∈ [.space, .index, .limit, .offset, .iterator]) {σ : Slot}
    (hσ : slotOf k = some σ) {x x₀ : UInt32} (always : Bool)
    (hx : (runSetters l (tntRequestNew tp)).2.get σ = .num x)
    (hx₀ : (tntRequestNew tp).get σ = .num x₀)
    (hpreset : if always then preset k = some (.uint x₀.toNat) else x₀ = 0) :
    Shown tp l k (if carries tp k && (always || x ≠ 0) then some (.uint x.toNat) else none) := by
  by_cases hc : carries tp k = true
  · have hget := lastSet_get hl hc hσ
    rw [hx] at hget
    unfold Shown
    cases hlast : lastSet tp l k with
    | none =>
      rw [hlast, hx₀] at hget
      -- nothing was set: the slot holds what the constructor put there
      obtain rfl := SlotVal.num.inj hget
      cases always with
      | true => simpa [hc] using hpreset
      | false =>
        have hzero : x = 0 := by simpa using hpreset
        simp [hc, hzero]
    | some s =>
      obtain ⟨n, hval, hword⟩ := Setter.val_num (Setter.field_eq (lastSet_some hlast).2).1 hk
      rw [hlast] at hget
      obtain rfl := SlotVal.num.inj (hget.trans hval)
      refine ⟨?_, ?_⟩
      · intro v hv
        rw [hword]
        split at hv
        · exact (Option.some.inj hv).symm
        · exact absurd hv (by simp)
      · intro hnone
        rw [hword]
        split at hnone
        · exact absurd hnone (by simp)
        · next hno =>
          have hzero : x = 0 := by
            by_contra hne
            simp [hc, hne] at hno
          rw [hzero]
          rfl
  · rw [if_neg (by simp [hc])]
    exact shown_absent hc

/-- What stands behind a name for memory: a text, or an object of the caller. -/
def payloadOf (k : BodyKey) (bytes : Bytes) : Payload :=
  if k = .function ∨ k = .expression then .value (.str bytes) else .object bytes

/-- An object that encodes a value has memory.  No value has an empty encoding. -/
theorem memory_of_encodes {v : Value} {obj : StreamBuf} (h : Encodes v obj.bytes) :
    memory obj = some obj.bytes := by
  unfold memory
  cases hd : obj.data with
  | null => exact absurd (by simp [StreamBuf.bytes, hd]) h.ne_nil
  | live mem => rfl
  | freed => rfl

/-- A setter of memory hands on the bytes of its argument.  The slot has the bytes only, and nothing
of the object they came from. -/
theorem Setter.val_mem {s : Setter} {k : BodyKey} (h : s.pair tp = k)
    (hk : k ∈ [.key, .tuple, .function, .expression, .ops]) {v : Value} (hv : s.Says v) :
    ∃ bytes, s.val = .mem (some bytes) ∧ (payloadOf k bytes).Means v := by
  -- the texts are wrapped into a string when the request is compiled, the objects are not
  have htext : ∀ t : Bytes, t.length < 2 ^ 32 → (k = .function ∨ k = .expression) →
      (payloadOf k t).Means (.str t) := by
    intro t ht hkind
    rw [payloadOf, if_pos hkind]
    exact .value ht
  have hobject : ∀ obj : StreamBuf, Encodes v obj.bytes → ¬ (k = .function ∨ k = .expression) →
      SlotVal.mem (memory obj) = .mem (some obj.bytes) ∧ (payloadOf k obj.bytes).Means v := by
    intro obj henc hkind
    rw [payloadOf, if_neg hkind, memory_of_encodes henc]
    exact ⟨rfl, .object henc⟩
  cases s with
  | func text | expr text =>
    obtain ⟨t, rfl, rfl⟩ := hv
    subst h
    exact ⟨t.bytes, rfl, htext t.bytes t.short (by simp [Setter.pair])⟩
  | funcz text | exprz text =>
    obtain ⟨t, rfl, hlen, rfl⟩ := hv
    subst h
    exact ⟨t, rfl, htext t hlen (by simp [Setter.pair])⟩
  | key obj | tuple obj =>
    subst h
    exact ⟨obj.bytes, hobject obj hv (by simp [Setter.pair])⟩
  | ops obj =>
    refine ⟨obj.bytes, hobject obj hv ?_⟩
    rw [← h, Setter.pair]
    split <;> simp
  | _ =>
    subst h
    simp [Setter.pair] at hk

include hl in
/-- Memory of the caller: if there is some, it stands for a value that was set.  A slot of memory
that no call has set is `NULL`, and nothing is written for it. -/
theorem shown_mem {k : BodyKey} (hk : k ∈ [.key, .tuple, .function, .expression, .ops]) {σ : Slot}
    (hσ : slotOf k = some σ) (hc : carries tp k = true) {mem : Option Bytes}
    (hmem : (runSetters l (tntRequestNew tp)).2.get σ = .mem mem)
    (hnew : (tntRequestNew tp).get σ = .mem none) :
    ∃ v, (∀ bytes, mem = some bytes → (payloadOf k bytes).Means v) ∧
      Shown tp l k (if mem.isSome then some v else none) := by
  have hget := lastSet_get hl hc hσ
  rw [hmem] at hget
  unfold Shown
  cases hlast : lastSet tp l k with
  | none =>
    rw [hlast, hnew] at hget
    -- nothing was set, and nothing is shown
    obtain rfl := SlotVal.mem.inj hget
    exact ⟨.nil, by simp, by simp⟩
  | some s =>
    obtain ⟨hin, hfield⟩ := lastSet_some hlast
    obtain ⟨-, v, hv⟩ := hl s hin
    obtain ⟨bytes, hval, hmeans⟩ := Setter.val_mem (Setter.field_eq hfield).1 hk hv
    rw [hlast] at hget
    obtain rfl := SlotVal.mem.inj (hget.trans hval)
    refine ⟨v, ?_, ?_, ?_⟩
    · intro bytes' heq
      obtain rfl := Option.some.inj heq
      exact hmeans
    · intro v' hv'
      obtain rfl := Option.some.inj hv'
      exact hv
    · intro hnone
      exact absurd hnone (by simp)

omit hl in
/-- Stored as `int` and encoded as `uint64_t`, a `uint32_t` is sign-extended.  From `2^31` on the
`int` is negative, and as a `uint64_t` it is close to `2^64`. -/
theorem signExtended_eq_iff (n : UInt32) :
    n.toInt32.toInt64.toUInt64.toNat = n.toNat ↔ n.toNat < 2 ^ 31 := by
  have hlt := n.toNat_lt
  have hval : n.toInt32.toInt64.toUInt64.toNat = (n.toBitVec.signExtend 64).toNat := rfl
  rw [hval, BitVec.toNat_signExtend]
  have hmsb : n.toBitVec.msb = decide (2 ^ 31 ≤ n.toNat) := BitVec.msb_eq_decide _
  have hnat : n.toBitVec.toNat = n.toNat := rfl
  rw [hmsb, BitVec.toNat_setWidth, hnat]
  by_cases h : 2 ^ 31 ≤ n.toNat
  · simp only [h, decide_true, if_true]
    omega
  · simp only [h, decide_false, Bool.false_eq_true, if_false]
    omega

include hl in
/-- The index base is shown exactly if it fits.  This is the only pair for which the condition is
not always met; all other slots are written as they were set. -/
theorem shown_indexBase_iff {x : Int32}
    (hx : (runSetters l (tntRequestNew tp)).2.get .indexBase = .int x) :
    Shown tp l .indexBase (if carries tp .indexBase && x ≠ 0
        then some (.uint x.toInt64.toUInt64.toNat) else none) ↔ IndexBaseFits tp l := by
  by_cases hc : carries tp .indexBase = true
  · have hget := lastSet_get hl hc rfl
    rw [hx] at hget
    unfold Shown IndexBaseFits
    cases hlast : lastSet tp l .indexBase with
    | none =>
      rw [hlast] at hget
      obtain rfl : x = 0 := SlotVal.int.inj hget
      simp
    | some s =>
      obtain ⟨hpair, -⟩ := Setter.field_eq (lastSet_some hlast).2
      obtain ⟨n, rfl⟩ : ∃ n, s = .indexBase n := by
        cases s with
        | indexBase n => exact ⟨n, rfl⟩
        | ops s =>
          simp only [Setter.pair] at hpair
          split at hpair <;> exact absurd hpair (by decide)
        | _ => exact absurd hpair (by simp [Setter.pair])
      rw [hlast] at hget
      obtain rfl : x = n.toInt32 := SlotVal.int.inj hget
      -- the base goes through an `int`, and back sign-extended
      have hzero : n.toInt32 = 0 → n = 0 := by
        intro h
        rw [← UInt32.toUInt32_toInt32 n, h]
        rfl
      constructor
      · rintro ⟨hfound, -⟩ m hm
        obtain rfl := Setter.indexBase.inj (Option.some.inj hm)
        by_cases h : n.toInt32 = 0
        · rw [hzero h]
          decide
        · have hword := hfound _ (if_pos (by simp [hc, h]))
          exact (signExtended_eq_iff n).mp (Value.uint.inj hword)
      · intro hfits
        have hlt := hfits n rfl
        refine ⟨?_, ?_⟩
        · intro v hv
          split at hv
          · obtain rfl := Option.some.inj hv
            exact congrArg Value.uint ((signExtended_eq_iff n).mpr hlt)
          · exact absurd hv (by simp)
        · intro hnone
          split at hnone
          · exact absurd hnone (by simp)
          · next hno =>
            have h : n.toInt32 = 0 := by
              by_contra hne
              simp [hc, hne] at hno
            rw [hzero h]
            rfl
  · rw [if_neg (by simp [hc])]
    refine ⟨?_, fun _ => shown_absent hc⟩
    intro _ n hn
    rw [lastSet_none hc] at hn
    exact absurd hn (by simp)

include hl in
/-- A slot that no pair of the type is kept in stays as the constructor left it.  A setter for it
either is not meant for the type or does not exist. -/
theorem get_unset {σ : Slot} (hσ : ∀ k, carries tp k = true → slotOf k ≠ some σ) :
    (runSetters l (tntRequestNew tp)).2.get σ = (tntRequestNew tp).get σ := by
  apply runSetters_get (.inl rfl)
  intro s hs hslot
  obtain ⟨k, hk⟩ := Option.ne_none_iff_exists'.mp (hl s hs).1
  have hwrites := (hl s hs).slot hk
  rw [show (tntRequestNew tp).type = tp from rfl] at hslot
  rw [hslot] at hwrites
  exact absurd hwrites.symm (hσ k (Setter.field_eq hk).2)

end Shown

/-! ## §4 — the body of a compiled request. -/

/-- A pair that may be written: whether it is, what is written, and the value it stands for. -/
structure Entry where
  shown : Bool
  field : Field
  value : Value

def Entry.pair (e : Entry) : BodyKey × Value := (e.field.key, e.value)

/-- The pairs that are written. -/
def writtenFields (es : List Entry) : List Field := es.flatMap fun e => fieldIf e.shown e.field

/-- The pairs that are read. -/
def readPairs (es : List Entry) : List (BodyKey × Value) := es.flatMap fun e => sayIf e.shown e.pair

/-- What is written is read, ... -/
theorem readPairs_reads {es : List Entry}
    (h : ∀ e ∈ es, e.shown = true → e.field.payload.Means e.value) :
    List.Forall₂ Field.Reads (writtenFields es) (readPairs es) := by
  induction es with
  | nil => exact .nil
  | cons e es ih =>
    refine List.rel_append ?_ (ih fun e he => h e (List.mem_cons_of_mem _ he))
    show List.Forall₂ Field.Reads (fieldIf e.shown e.field) (sayIf e.shown e.pair)
    cases hs : e.shown with
    | false => exact .nil
    | true => exact .cons ⟨rfl, h e List.mem_cons_self hs⟩ .nil

/-- ... in the order of the entries, ... -/
theorem readPairs_keys (es : List Entry) :
    ((readPairs es).map Prod.fst).Sublist (es.map fun e => e.field.key) := by
  induction es with
  | nil => exact .slnil
  | cons e es ih =>
    show ((sayIf e.shown e.pair ++ readPairs es).map Prod.fst).Sublist _
    rw [List.map_append, List.map_cons]
    cases hs : e.shown with
    | false => exact ih.cons _
    | true => exact ih.cons_cons _

/-- ... and nothing else is found.  The keys that are read are keys of entries. -/
theorem readPairs_lookup_none {es : List Entry} {k : BodyKey}
    (h : ∀ e ∈ es, e.field.key ≠ k) : (readPairs es).lookup k = none := by
  rw [List.lookup_eq_none_iff]
  intro p hp
  have hmem := (readPairs_keys es).subset (List.mem_map_of_mem hp)
  obtain ⟨e, he, hkey⟩ := List.mem_map.mp hmem
  have hne := h e he
  rw [hkey] at hne
  simpa using Ne.symm hne

/-- A pair is read if it is written.  No key is there twice, so the first pair that is found is the
only one. -/
theorem readPairs_lookup {es : List Entry} (hnodup : (es.map fun e => e.field.key).Nodup) {e : Entry}
    (he : e ∈ es) : (readPairs es).lookup e.field.key = if e.shown then some e.value else none := by
  induction es with
  | nil => exact absurd he (by simp)
  | cons e' es ih =>
    show (sayIf e'.shown e'.pair ++ readPairs es).lookup e.field.key = _
    rw [List.map_cons, List.nodup_cons] at hnodup
    rcases List.mem_cons.mp he with rfl | he
    · cases hs : e.shown with
      | false =>
        refine (readPairs_lookup_none ?_)
        intro e' he' hkey
        exact hnodup.1 (List.mem_map.mpr ⟨e', he', hkey⟩)
      | true => simp [sayIf, Entry.pair]
    · have hne : e.field.key ≠ e'.field.key := by
        intro hkey
        exact hnodup.1 (List.mem_map.mpr ⟨e, he, hkey⟩)
      rw [← ih hnodup.2 he]
      cases hs : e'.shown with
      | false => rfl
      | true =>
        have hbeq : (e.field.key == e'.field.key) = false := by simpa using hne
        simp [sayIf, Entry.pair, List.lookup_cons, hbeq]

/-- The pair the key slot is written as. -/
def keyName (tp : RequestType) : Option BodyKey :=
  match tp with
  | .eval => some .expression
  | .call16 | .call => some .function
  | .select | .update | .delete => some .key
  | .upsert => some .ops
  | _ => none

/-- The key slot is written under the name of the type, ... -/
theorem keyField_eq (tp : RequestType) (key : Bytes) :
    keyField tp key = (keyName tp).map fun k => ⟨k, payloadOf k key⟩ := by
  cases tp <;> simp [keyField, keyName, payloadOf, textField]

/-- ... which is one of five, ... -/
theorem keyName_some {tp : RequestType} {k : BodyKey} (h : keyName tp = some k) :
    carries tp k = true ∧ slotOf k = some .key ∧ k ∈ [.key, .tuple, .function, .expression, .ops] := by
  cases tp <;> simp only [keyName, Option.some.injEq, reduceCtorEq] at h <;> subst h <;>
    exact ⟨by decide, rfl, by decide⟩

/-- ... and the only one the slot can have. -/
theorem keyName_of_carries {tp : RequestType} {k : BodyKey} (hc : carries tp k = true)
    (hσ : slotOf k = some .key) : keyName tp = some k := by
  cases k <;> first
    | exact absurd hσ (by decide)
    | (cases tp <;> first | rfl | exact absurd hc (by decide))

/-- The pairs of a request, if the key slot is written as `kn` and stands for `w`, and the tuple for
`u`.  All pairs a request may write are listed, in the order in which it writes them, each with the
test that decides whether it does. -/
def TntRequest.entries (req : TntRequest) (kn : BodyKey) (w u : Value) : List Entry :=
  [⟨carries req.type .space && (true || req.spaceId ≠ 0), numField .space req.spaceId.toNat,
      .uint req.spaceId.toNat⟩,
    ⟨carries req.type .index && (false || req.indexId ≠ 0), numField .index req.indexId.toNat,
      .uint req.indexId.toNat⟩,
    ⟨carries req.type .limit && (true || req.limit ≠ 0), numField .limit req.limit.toNat,
      .uint req.limit.toNat⟩,
    ⟨carries req.type .offset && (false || req.offset ≠ 0), numField .offset req.offset.toNat,
      .uint req.offset.toNat⟩,
    ⟨carries req.type .iterator && (false || req.iterator ≠ 0),
      numField .iterator req.iterator.toNat, .uint req.iterator.toNat⟩,
    ⟨req.key.isSome, ⟨kn, payloadOf kn (req.key.getD [])⟩, w⟩,
    ⟨req.tuple.isSome, ⟨.tuple, .object (req.tuple.getD [])⟩, u⟩,
    ⟨carries req.type .indexBase && req.indexBase ≠ 0,
      numField .indexBase req.indexBase.toInt64.toUInt64.toNat,
      .uint req.indexBase.toInt64.toUInt64.toNat⟩]

/-- The scalars are the first five entries.  The code writes them first, into its own header, before
any memory of the caller. -/
theorem TntRequest.scalarFields_eq (req : TntRequest) (kn : BodyKey) (w u : Value) :
    req.scalarFields = writtenFields ((req.entries kn w u).take 5) := by
  have hspace : (decide (req.type.num < RequestType.call16.num) || req.type = .upsert) =
      (carries req.type .space && (true || req.spaceId ≠ 0)) := by
    cases req.type <;> simp [carries, RequestType.num]
  have hindex : (req.indexId ≠ 0 && (req.type = .select || req.type = .update ||
      req.type = .delete)) = (carries req.type .index && (false || req.indexId ≠ 0)) := by
    cases req.type <;> simp [carries]
  have hlimit : decide (req.type = .select) =
      (carries req.type .limit && (true || req.limit ≠ 0)) := by simp [carries]
  have hoffset : (req.offset ≠ 0 && req.type = .select) =
      (carries req.type .offset && (false || req.offset ≠ 0)) := by simp [carries, Bool.and_comm]
  have hiterator : (req.iterator ≠ 0 && req.type = .select) =
      (carries req.type .iterator && (false || req.iterator ≠ 0)) := by
    simp [carries, Bool.and_comm]
  unfold TntRequest.scalarFields
  rw [hspace, hindex, hoffset, hiterator, hlimit]
  simp [writtenFields, TntRequest.entries]

/-- **What is compiled is the written part of the entries.**  The hypothesis is that a key slot with
memory has a pair to be written as; without one `tnt_request_writeout` returns -1. -/
theorem TntRequest.fields_entries {req : TntRequest} {kn : BodyKey}
    (hkn : req.key ≠ none → keyName req.type = some kn) (w u : Value) :
    req.fields = some (writtenFields (req.entries kn w u)) := by
  have hbase : (req.indexBase ≠ 0 && (req.type = .update || req.type = .upsert)) =
      (carries req.type .indexBase && req.indexBase ≠ 0) := by
    simp [carries, Bool.and_comm]
  have htuple : req.tupleFields = writtenFields ((req.entries kn w u).drop 6) := by
    unfold TntRequest.tupleFields
    rw [hbase]
    cases htup : req.tuple <;> simp [writtenFields, TntRequest.entries, fieldIf, htup]
  have hsplit : writtenFields (req.entries kn w u) =
      writtenFields ((req.entries kn w u).take 5) ++
        (fieldIf req.key.isSome ⟨kn, payloadOf kn (req.key.getD [])⟩ ++
          writtenFields ((req.entries kn w u).drop 6)) := by
    simp [writtenFields, TntRequest.entries]
  rw [hsplit, ← htuple, ← req.scalarFields_eq kn w u, TntRequest.fields]
  cases hkey : req.key with
  | none => simp [fieldIf]
  | some key =>
    have hname := hkn (by simp [hkey])
    simp [keyField_eq, hname, fieldIf]

/-- The keys, in the order they are written. -/
theorem TntRequest.entries_keys (req : TntRequest) (kn : BodyKey) (w u : Value) :
    ((req.entries kn w u).map fun e => e.field.key) =
      [.space, .index, .limit, .offset, .iterator, kn, .tuple, .indexBase] := rfl

section Entries

variable {req : TntRequest} {kn : BodyKey} {w u : Value}

/-- The key slot goes by none of the other names. -/
theorem TntRequest.entries_nodup (req : TntRequest) (hσ : slotOf kn = some .key) (w u : Value) :
    ((req.entries kn w u).map fun e => e.field.key).Nodup := by
  rw [TntRequest.entries_keys]
  cases kn <;> first | decide | exact absurd hσ (by decide)

/-- A pair that is not listed is not found.  This closes the list: what is not in it is never
written. -/
theorem TntRequest.entries_lookup_none (req : TntRequest) (w u : Value) {k : BodyKey}
    (hk : k ∉ [.space, .index, .limit, .offset, .iterator, kn, .tuple, .indexBase]) :
    (readPairs (req.entries kn w u)).lookup k = none := by
  apply readPairs_lookup_none
  intro e he heq
  apply hk
  rw [← req.entries_keys kn w u]
  exact List.mem_map.mpr ⟨e, he, heq⟩

/-- What is written for a request is read as the values it stands for.  Numbers stand for
themselves; memory has to be an encoding, and that it is comes from the setters. -/
theorem TntRequest.entries_reads
    (hw : ∀ bytes, req.key = some bytes → (payloadOf kn bytes).Means w)
    (hu : ∀ bytes, req.tuple = some bytes → Encodes u bytes) :
    List.Forall₂ Field.Reads (writtenFields (req.entries kn w u))
      (readPairs (req.entries kn w u)) := by
  apply readPairs_reads
  intro e he hshown
  simp only [TntRequest.entries, List.mem_cons, List.not_mem_nil, or_false] at he
  rcases he with rfl | rfl | rfl | rfl | rfl | rfl | rfl | rfl
  · exact (numField_reads .space req.spaceId).2
  · exact (numField_reads .index req.indexId).2
  · exact (numField_reads .limit req.limit).2
  · exact (numField_reads .offset req.offset).2
  · exact (numField_reads .iterator req.iterator).2
  · obtain ⟨bytes, hbytes⟩ := Option.isSome_iff_exists.mp hshown
    simp only [hbytes, Option.getD_some]
    exact hw bytes hbytes
  · obtain ⟨bytes, hbytes⟩ := Option.isSome_iff_exists.mp hshown
    simp only [hbytes, Option.getD_some]
    exact .object (hu bytes hbytes)
  · exact .value (UInt64.toNat_lt _)

/-- A name or an expression that stands for a value has a length that fits its header.  A text that
is encoded in a message has a length of 32 bits. -/
theorem TntRequest.textFits_of_means (hkn : req.key ≠ none → keyName req.type = some kn)
    (hw : ∀ bytes, req.key = some bytes → (payloadOf kn bytes).Means w) : req.TextFits := by
  intro hty bytes hbytes
  have hmeans := hw bytes hbytes
  have hthis := hkn (by simp [hbytes])
  have htext : kn = .function ∨ kn = .expression := by
    rcases hty with hty | hty | hty
    · rw [hty] at hthis
      exact .inr (Option.some.inj hthis).symm
    · rw [hty] at hthis
      exact .inl (Option.some.inj hthis).symm
    · rw [hty] at hthis
      exact .inl (Option.some.inj hthis).symm
  rw [payloadOf, if_pos htext] at hmeans
  cases hmeans with
  | value hfits => exact hfits

end Entries

section Compile

variable {tp : RequestType} {l : List Setter} (hl : ∀ s ∈ l, s.Meant tp)

include hl in
/-- The key slot is written as the pair it was set for, and stands for a value.  By cases on the
type of the request, which decides whose slot it is. -/
theorem key_means : ∃ kn w, slotOf kn = some .key ∧
    (∀ k, carries tp k = true → slotOf k = some .key → k = kn) ∧
    ((runSetters l (tntRequestNew tp)).2.key ≠ none → keyName tp = some kn) ∧
    (∀ bytes, (runSetters l (tntRequestNew tp)).2.key = some bytes → (payloadOf kn bytes).Means w) ∧
    Shown tp l kn (if (runSetters l (tntRequestNew tp)).2.key.isSome then some w else none) := by
  set req := (runSetters l (tntRequestNew tp)).2 with hreq
  cases hname : keyName tp with
  | none =>
    -- the type has no pair that is kept in the key
    have hnot : ∀ k, carries tp k = true → slotOf k ≠ some .key := by
      intro k hc hσ
      rw [keyName_of_carries hc hσ] at hname
      exact absurd hname (by simp)
    have hkey : req.key = none := SlotVal.mem.inj (get_unset hl hnot)
    refine ⟨.key, .nil, rfl, ?_, ?_, ?_, ?_⟩
    · intro k hc hσ
      exact absurd hσ (hnot k hc)
    · intro h
      exact absurd hkey h
    · intro bytes hbytes
      rw [hkey] at hbytes
      exact absurd hbytes (by simp)
    · rw [hkey]
      exact shown_absent fun hc => hnot _ hc rfl
  | some kn =>
    obtain ⟨hc, hσ, hmem⟩ := keyName_some hname
    have hget : req.get .key = .mem req.key := rfl
    obtain ⟨w, hw, hshown⟩ := shown_mem hl hmem hσ hc hget rfl
    refine ⟨kn, w, hσ, ?_, fun _ => rfl, hw, hshown⟩
    intro k hck hσk
    exact slotOf_inj hck hc (hσk.trans hσ.symm)

include hl in
/-- The tuple stands for a value.  For an update the operations stand in it, and they are an array
as well. -/
theorem tuple_means : ∃ u,
    (∀ bytes, (runSetters l (tntRequestNew tp)).2.tuple = some bytes → Encodes u bytes) ∧
    Shown tp l .tuple (if (runSetters l (tntRequestNew tp)).2.tuple.isSome then some u else none) := by
  set req := (runSetters l (tntRequestNew tp)).2 with hreq
  by_cases hc : carries tp .tuple = true
  · have hget : req.get .tuple = .mem req.tuple := rfl
    obtain ⟨u, hu, hshown⟩ := shown_mem hl (by decide) rfl hc hget rfl
    refine ⟨u, ?_, hshown⟩
    intro bytes hbytes
    exact (hu bytes hbytes).encodes
  · have hnot : ∀ k, carries tp k = true → slotOf k ≠ some .tuple := by
      intro k hck hσ
      obtain rfl : k = .tuple := by cases k <;> first | rfl | exact absurd hσ (by decide)
      exact hc hck
    have htuple : req.tuple = none := SlotVal.mem.inj (get_unset hl hnot)
    rw [htuple]
    exact ⟨.nil, by simp, shown_absent hc⟩

section Read

variable {kn : BodyKey} {w u : Value} (hσ : slotOf kn = some .key)

include hσ in
/-- What the pairs written for a request are read as, one after the other. -/
theorem entries_lookup (req : TntRequest) (w u : Value) :
    ∀ e ∈ req.entries kn w u, (readPairs (req.entries kn w u)).lookup e.field.key =
      if e.shown then some e.value else none :=
  fun _ he => readPairs_lookup (req.entries_nodup hσ w u) he

include hl hσ in
/-- The numbers of the body, index base aside, are those that were set.  Each of the five is shown
by its entry, and `shown_num` says that this is what was set. -/
theorem entries_num {k : BodyKey} (hk : k ∈ [.space, .index, .limit, .offset, .iterator]) :
    Shown tp l k
      ((readPairs ((runSetters l (tntRequestNew tp)).2.entries kn w u)).lookup k) := by
  have htype : (runSetters l (tntRequestNew tp)).2.type = tp := runSetters_type l _
  set req := (runSetters l (tntRequestNew tp)).2 with hreq
  obtain ⟨hspace, hrest⟩ := List.forall_mem_cons.mp (entries_lookup hσ req w u)
  obtain ⟨hindex, hrest⟩ := List.forall_mem_cons.mp hrest
  obtain ⟨hlimit, hrest⟩ := List.forall_mem_cons.mp hrest
  obtain ⟨hoffset, hrest⟩ := List.forall_mem_cons.mp hrest
  obtain ⟨hiterator, -⟩ := List.forall_mem_cons.mp hrest
  rw [htype] at hspace hindex hlimit hoffset hiterator
  have hread : ∀ k o, (readPairs (req.entries kn w u)).lookup k = o → Shown tp l k o →
      Shown tp l k ((readPairs (req.entries kn w u)).lookup k) := by
    rintro k o rfl h
    exact h
  simp only [List.mem_cons, List.not_mem_nil, or_false] at hk
  rcases hk with rfl | rfl | rfl | rfl | rfl
  · have hzero : preset .space = some (.uint (0 : UInt32).toNat) := rfl
    exact hread _ _ hspace (shown_num hl (by decide) rfl true rfl rfl hzero)
  · exact hread _ _ hindex (shown_num hl (by decide) rfl false rfl rfl rfl)
  · have hmax : preset .limit = some (.uint (0xffffffff : UInt32).toNat) := rfl
    exact hread _ _ hlimit (shown_num hl (by decide) rfl true rfl rfl hmax)
  · exact hread _ _ hoffset (shown_num hl (by decide) rfl false rfl rfl rfl)
  · exact hread _ _ hiterator (shown_num hl (by decide) rfl false rfl rfl rfl)

include hσ in
/-- Of the pairs of the key slot one is written, the others the type does not have.  The last call
for the slot and the last call for the pair are the same call, since no other pair of the type
shares the slot. -/
theorem entries_slot (req : TntRequest)
    (honly : ∀ k, carries tp k = true → slotOf k = some .key → k = kn)
    (hshown : Shown tp l kn (if req.key.isSome then some w else none)) {k : BodyKey}
    (hk : slotOf k = some .key) :
    Shown tp l k ((readPairs (req.entries kn w u)).lookup k) := by
  by_cases heq : k = kn
  · have hlookup := entries_lookup hσ req w u _
      (show _ ∈ req.entries kn w u from List.mem_of_getElem? (i := 5) rfl)
    rw [heq, show (readPairs (req.entries kn w u)).lookup kn = _ from hlookup]
    exact hshown
  · rw [req.entries_lookup_none w u (k := k)]
    · exact shown_absent fun hc => heq (honly k hc hk)
    · cases k <;> first
        | exact absurd hk (by decide)
        | simpa using heq

include hσ in
/-- A pair that no setter has is not written.  There is nothing to be shown, and nothing is. -/
theorem entries_other (req : TntRequest) {k : BodyKey} (hk : slotOf k = none)
    (hc : carries tp k = false) :
    Shown tp l k ((readPairs (req.entries kn w u)).lookup k) := by
  rw [req.entries_lookup_none w u (k := k)]
  · exact shown_absent (by simp [hc])
  · cases k <;> first
      | exact absurd hk (by decide)
      | (cases kn <;> first | decide | exact absurd hσ (by decide))

end Read

include hl in
/-- **The body of a compiled request**: written as `entries`, read as its values, and exact if and
only if the index base fits.  A pair for each entry that is shown; for all but the index base what
is shown was set, whatever it is. -/
theorem body_exact_iff : ∃ fields pairs,
    (runSetters l (tntRequestNew tp)).2.fields = some fields ∧
    (runSetters l (tntRequestNew tp)).2.TextFits ∧ List.Forall₂ Field.Reads fields pairs ∧
    (Exact tp l pairs ↔ IndexBaseFits tp l) := by
  obtain ⟨kn, w, hσ, honly, hname, hw, hkshown⟩ := key_means hl
  obtain ⟨u, hu, htshown⟩ := tuple_means hl
  have htype : (runSetters l (tntRequestNew tp)).2.type = tp := runSetters_type l _
  have hnums : ∀ {k}, k ∈ [.space, .index, .limit, .offset, .iterator] → Shown tp l k
      ((readPairs ((runSetters l (tntRequestNew tp)).2.entries kn w u)).lookup k) :=
    fun hk => entries_num hl hσ hk
  set req := (runSetters l (tntRequestNew tp)).2 with hreq
  have hkn : req.key ≠ none → keyName req.type = some kn := by
    rw [htype]
    exact hname
  -- the last two pairs of the body
  have hlookup := entries_lookup hσ req w u
  have htuple : (readPairs (req.entries kn w u)).lookup .tuple = _ :=
    hlookup _ (List.mem_of_getElem? (i := 6) rfl)
  have hbase : (readPairs (req.entries kn w u)).lookup .indexBase = _ :=
    hlookup _ (List.mem_of_getElem? (i := 7) rfl)
  have hbase_iff := shown_indexBase_iff hl (x := req.indexBase) rfl
  rw [← htype] at hbase_iff
  refine ⟨_, readPairs (req.entries kn w u), TntRequest.fields_entries hkn w u,
    TntRequest.textFits_of_means hkn hw, TntRequest.entries_reads hw hu, ?_⟩
  constructor
  · rintro ⟨-, hall⟩
    have hshown := hall .indexBase
    rw [hbase] at hshown
    rw [← htype]
    exact hbase_iff.mp (htype ▸ hshown)
  · intro hfits
    refine ⟨(req.entries_nodup hσ w u).sublist (readPairs_keys _), fun k => ?_⟩
    cases k with
    | space | index | limit | offset | iterator => exact hnums (by decide)
    | key | function | expression | ops => exact entries_slot hσ req honly hkshown rfl
    | username | sqlText | sqlBind => exact entries_other hσ req rfl rfl
    | tuple =>
      rw [htuple]
      exact htshown
    | indexBase =>
      rw [hbase]
      exact htype ▸ hbase_iff.mpr (htype ▸ hfits)

include hl in
/-- **A compiled request carries exactly what was set, if the index base fits.**  For a request of
any type, filled by any sequence of setters meant for it, `tnt_request_writeout` reaches `writev`:
the pair count fits into one byte, the scratch array and the vector suffice.  The message announces
its length, carries the type and the sync, and its body says what was set, exactly if the last index
base of an update or upsert is below `2^31`.  Setters may be called in any order and repeatedly, and
some of the pairs share their memory with others; what counts for a pair is the last call for it.  A
pair that is absent counts as 0, which is the protocol's default for all pairs that may be. -/
theorem tntRequestWriteout_exact_iff [Msgpuck] (reqid : UInt64) (sync : Option UInt64)
    (hsize : ∀ fields, (runSetters l (tntRequestNew tp)).2.fields = some fields →
      (packageWire tp (nextSync reqid sync).toNat fields).length < 2 ^ 64) :
    ∃ iov, tntRequestWriteout reqid (runSetters l (tntRequestNew tp)).2 sync =
        some (.writev iov, nextSync reqid sync + 1, nextSync reqid sync) ∧
      ((∃ pairs, Carries iov.flatten tp (nextSync reqid sync).toNat pairs ∧ Exact tp l pairs) ↔
        IndexBaseFits tp l) := by
  obtain ⟨fields, pairs, hfields, htext, hreads, hiff⟩ := body_exact_iff hl
  have htype : (runSetters l (tntRequestNew tp)).2.type = tp := runSetters_type l _
  have hcount := TntRequest.fields_length hfields
  obtain ⟨iov, hsend, hwire⟩ := @tntRequestWriteout_sends _ reqid _ sync fields hfields htext
    (by rw [htype]; exact hsize fields hfields)
  rw [htype] at hwire
  have hcarries : Carries iov.flatten tp (nextSync reqid sync).toNat pairs := by
    rw [hwire]
    exact messageWire_carries tp (UInt64.toNat_lt _) hreads (by omega)
  refine ⟨iov, hsend, ?_⟩
  rw [← hiff]
  constructor
  · rintro ⟨pairs', hcarries', hexact⟩
    rwa [hcarries.unique hcarries']
  · intro hexact
    exact ⟨pairs, hcarries, hexact⟩

end Compile

/-- An index base a signed `int` holds: the update carries it. -/
theorem tntRequestWriteout_exact_base_one :
    ∃ iov, @tntRequestWriteout Msgpuck.reference 0
        (runSetters [.space 512, .indexBase 1] (tntRequestNew .update)).2 none =
          some (.writev iov, 1, 0) ∧
      ∃ pairs, Carries iov.flatten .update 0 pairs ∧
        Exact .update [.space 512, .indexBase 1] pairs := by
  have hl : ∀ s ∈ [Setter.space 512, .indexBase 1], s.Meant .update := by
    simp only [List.forall_mem_cons, List.not_mem_nil, false_implies, implies_true, and_true]
    exact ⟨⟨by decide, _, rfl⟩, ⟨by decide, _, rfl⟩⟩
  have hsize : ∀ fields,
      (runSetters [.space 512, .indexBase 1] (tntRequestNew .update)).2.fields = some fields →
        (packageWire .update (nextSync 0 none).toNat fields).length < 2 ^ 64 := by
    intro fields hfields
    obtain rfl := Option.some.inj hfields
    decide
  obtain ⟨iov, hsend, hiff⟩ := @tntRequestWriteout_exact_iff .update _ hl Msgpuck.reference 0 none hsize
  refine ⟨iov, hsend, hiff.mpr ?_⟩
  intro n hn
  obtain rfl := Setter.indexBase.inj (Option.some.inj hn)
  decide

/-- An index base of `2^31` on an update: the body says `0xffffffff80000000`, and nothing else can
be read in it. -/
theorem tntRequestWriteout_base_sign_extended :
    (∀ s ∈ [Setter.indexBase 0x80000000], s.Meant .update) ∧
    ∃ iov, @tntRequestWriteout Msgpuck.reference 0
        (runSetters [.indexBase 0x80000000] (tntRequestNew .update)).2 none =
          some (.writev iov, 1, 0) ∧
      Carries iov.flatten .update 0 [(.space, .uint 0), (.indexBase, .uint 0xffffffff80000000)] ∧
      ¬ ∃ pairs, Carries iov.flatten .update 0 pairs ∧
        Exact .update [.indexBase 0x80000000] pairs := by
  have hfields : (runSetters [.indexBase 0x80000000] (tntRequestNew .update)).2.fields =
      some [numField .space 0, numField .indexBase 0xffffffff80000000] := rfl
  obtain ⟨iov, hsend, hwire⟩ := @tntRequestWriteout_sends Msgpuck.reference 0 _ none _ hfields
    (by simp [TntRequest.TextFits, runSetters_type, tntRequestNew]) (by decide)
  have hcarries : Carries iov.flatten .update 0
      [(.space, .uint 0), (.indexBase, .uint 0xffffffff80000000)] := by
    rw [hwire]
    refine messageWire_carries .update (by decide) ?_ (by decide)
    have hfits : (Value.uint 0).Fits ∧ (Value.uint 0xffffffff80000000).Fits := by simp [Value.Fits]
    exact .cons ⟨rfl, .value hfits.1⟩ (.cons ⟨rfl, .value hfits.2⟩ .nil)
  refine ⟨?_, iov, hsend, hcarries, ?_⟩
  · intro s hs
    rw [List.mem_singleton.mp hs]
    exact ⟨by decide, _, rfl⟩
  · rintro ⟨pairs, hother, -, hshown⟩
    rw [← hcarries.unique hother] at hshown
    obtain ⟨hfound, -⟩ := hshown .indexBase
    exact absurd (Value.uint.inj (hfound _ rfl)) (by decide)

end TarantoolC.Request
