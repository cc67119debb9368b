/-
# TarantoolC.Request.Agree — a compiled request says what the direct call says.

The two APIs write different bytes: the builder leaves out pairs that hold their default, and
writes the operations of an upsert before its tuple.  What they agree in is what a server reads:
`readBody` looks a key up in the decoded body and falls back to the protocol's default.

The proof goes through the slots of `struct tnt_request`.  A setter writes one slot
(`Setter.apply_get`), so after any run of setters a slot holds what the last setter for it has
written (`runSetters_last`), and the order of the calls, or calling one of them twice, does not
matter (`Direct.runSetters_fill`).  What is compiled from the slots is known from
`tntRequestWriteout_sends`, so that `Agrees` is left: a comparison of two lists of pairs, one
operation at a time.

`Direct.Offered` is there because not every direct encoder has a request type in the builder, and
`cstr` because a setter takes a text with a 32-bit length where a direct encoder takes the same as
an `int`.
-/
import TarantoolC.Request.Builder

namespace TarantoolC.Request

open MsgPack Msgpuck Proto Object

/-! ## §1 — slots: what a setter writes. -/

/-- The fields of a request that setters write. -/
inductive Slot where
  | space | index | offset | limit | iterator | indexBase | key | tuple
  deriving Repr, DecidableEq

/-- The content of a slot. -/
inductive SlotVal where
  | num (n : UInt32)
  | int (n : Int32)
  | mem (bytes : Option Bytes)
  deriving Repr, DecidableEq

def TntRequest.get (req : TntRequest) : Slot → SlotVal
  | .space => .num req.spaceId
  | .index => .num req.indexId
  | .offset => .num req.offset
  | .limit => .num req.limit
  | .iterator => .num req.iterator
  | .indexBase => .int req.indexBase
  | .key => .mem req.key
  | .tuple => .mem req.tuple

/-- The slot a setter writes on a request of type `tp`; `none` where it returns -1.  The type
decides twice: a function's name and an expression share the slot of the key, and the operations go
to the tuple of an update but to the key of an upsert. -/
def Setter.slot (tp : RequestType) : Setter → Option Slot
  | .space _ => some .space
  | .index _ => some .index
  | .offset _ => some .offset
  | .limit _ => some .limit
  | .iterator _ => some .iterator
  | .indexBase _ => some .indexBase
  | .key _ => some .key
  | .func name => if isCall tp && name.isSome then some .key else none
  | .funcz name => if isCall tp && name.isSome then some .key else none
  | .expr text => if tp = .eval && text.isSome then some .key else none
  | .exprz text => if tp = .eval && text.isSome then some .key else none
  | .ops _ => if tp = .update then some .tuple else if tp = .upsert then some .key else none
  | .tuple _ => some .tuple

def Setter.val : Setter → SlotVal
  | .space n | .index n | .offset n | .limit n | .iterator n => .num n
  | .indexBase n => .int n.toInt32
  | .key s | .ops s | .tuple s => .mem (memory s)
  | .func name => .mem (name.map CStr.bytes)
  | .funcz name => .mem name
  | .expr text => .mem (text.map CStr.bytes)
  | .exprz text => .mem text

/-- The setters that look at the type first: a name is for calls, ... -/
theorem tntRequestSetFunc_get (req : TntRequest) (name : Option Bytes) (σ : Slot) :
    (tntRequestSetFunc req name).2.get σ =
      if isCall req.type && name.isSome && σ = .key then .mem name else req.get σ := by
  unfold tntRequestSetFunc
  cases hc : isCall req.type with
  | false => simp
  | true =>
    cases name with
    | none => simp
    | some name => cases σ <;> simp [TntRequest.get]

/-- ... and an expression for evaluation.  Here too `NULL` is refused. -/
theorem tntRequestSetExpr_get (req : TntRequest) (text : Option Bytes) (σ : Slot) :
    (tntRequestSetExpr req text).2.get σ =
      if req.type = .eval && text.isSome && σ = .key then .mem text else req.get σ := by
  unfold tntRequestSetExpr
  by_cases hc : req.type = .eval
  · cases text with
    | none => simp [hc]
    | some text => cases σ <;> simp [hc, TntRequest.get]
  · simp [hc]

/-- **A setter writes its slot and nothing else.**  Read from left to right this is the whole
meaning of a setter; what follows about sequences of setters is about it and not about the thirteen
functions. -/
theorem Setter.apply_get (s : Setter) (req : TntRequest) (σ : Slot) :
    (s.apply req).2.get σ = if s.slot req.type = some σ then s.val else req.get σ := by
  cases s with
  | func name =>
    rw [Setter.apply, tntRequestSetFunc_get]
    cases hc : isCall req.type <;> cases name <;> cases σ <;> simp [Setter.slot, Setter.val, hc]
  | funcz name =>
    rw [Setter.apply, tntRequestSetFunc_get]
    cases hc : isCall req.type <;> cases name <;> cases σ <;> simp [Setter.slot, Setter.val, hc]
  | expr text =>
    rw [Setter.apply, tntRequestSetExpr_get]
    by_cases hc : req.type = .eval <;> cases text <;> cases σ <;>
      simp [Setter.slot, Setter.val, hc]
  | exprz text =>
    rw [Setter.apply, tntRequestSetExpr_get]
    by_cases hc : req.type = .eval <;> cases text <;> cases σ <;>
      simp [Setter.slot, Setter.val, hc]
  | ops s =>
    simp only [Setter.apply, tntRequestSetOps, Setter.slot, Setter.val]
    by_cases hu : req.type = .update
    · cases σ <;> simp [hu, TntRequest.get]
    · by_cases hp : req.type = .upsert
      · cases σ <;> simp [hp, TntRequest.get]
      · simp [hu, hp]
  | _ => cases σ <;> simp [Setter.apply, Setter.slot, Setter.val, TntRequest.get]

/-- No setter changes the type, ... -/
theorem Setter.apply_type (s : Setter) (req : TntRequest) : (s.apply req).2.type = req.type := by
  cases s with
  | func name => simp only [Setter.apply, tntRequestSetFunc]; split <;> [rfl; (split <;> rfl)]
  | funcz name => simp only [Setter.apply, tntRequestSetFunc]; split <;> [rfl; (split <;> rfl)]
  | expr text => simp only [Setter.apply, tntRequestSetExpr]; split <;> [rfl; (split <;> rfl)]
  | exprz text => simp only [Setter.apply, tntRequestSetExpr]; split <;> [rfl; (split <;> rfl)]
  | ops s => simp only [Setter.apply, tntRequestSetOps]; split <;> [rfl; (split <;> rfl)]
  | _ => rfl

/-- A setter that writes a slot returns 0.  The return value and the slot are two views of one
decision, the test of the type. -/
theorem Setter.apply_rv {s : Setter} {req : TntRequest} {σ : Slot}
    (h : s.slot req.type = some σ) : (s.apply req).1 = 0 := by
  cases s with
  | func name =>
    cases hc : isCall req.type <;> cases name <;>
      simp_all [Setter.apply, Setter.slot, tntRequestSetFunc]
  | funcz name =>
    cases hc : isCall req.type <;> cases name <;>
      simp_all [Setter.apply, Setter.slot, tntRequestSetFunc]
  | expr text =>
    by_cases hc : req.type = .eval <;> cases text <;>
      simp_all [Setter.apply, Setter.slot, tntRequestSetExpr]
  | exprz text =>
    by_cases hc : req.type = .eval <;> cases text <;>
      simp_all [Setter.apply, Setter.slot, tntRequestSetExpr]
  | ops s =>
    simp only [Setter.slot] at h
    simp only [Setter.apply, tntRequestSetOps]
    by_cases hu : req.type = .update
    · rw [if_pos hu]
    · by_cases hp : req.type = .upsert
      · rw [if_neg hu, if_pos hp]
      · rw [if_neg hu, if_neg hp] at h
        exact absurd h (by simp)
  | _ => rfl

/-! ## §2 — runs of setters. -/

/-- ... and no run of them. -/
theorem runSetters_type (l : List Setter) (req : TntRequest) :
    (runSetters l req).2.type = req.type := by
  induction l generalizing req with
  | nil => rfl
  | cons s l ih => exact (ih _).trans (s.apply_type req)

/-- **The last call wins**: a slot holds what the last setter for it wrote, or what it held before.
Earlier calls for the same slot leave no trace, and calls for other slots do not count.  The
induction takes the setters off the front, where the tail decides unless it has no call for the
slot. -/
theorem runSetters_last (l : List Setter) (req : TntRequest) (σ : Slot) :
    (runSetters l req).2.get σ =
      match (l.filter fun s => s.slot req.type = some σ).getLast? with
      | some s => s.val
      | none => req.get σ := by
  induction l generalizing req with
  | nil => rfl
  | cons s l ih =>
    have hty := s.apply_type req
    show (runSetters l (s.apply req).2).2.get σ = _
    rw [ih, hty, Setter.apply_get]
    by_cases hs : s.slot req.type = some σ
    · rw [List.filter_cons_of_pos (by simpa using hs), List.getLast?_cons, if_pos hs]
      cases (l.filter fun s => s.slot req.type = some σ).getLast? with
      | none => rfl
      | some t => rfl
    · rw [List.filter_cons_of_neg (by simpa using hs), if_neg hs]

/-- A slot that has a value, or that some call sets to it, has it in the end, if no call sets it to
anything else.  This is the form in which a sequence in any order is used: it is enough to look at
the calls one by one, and their order does not come into it. -/
theorem runSetters_get {l : List Setter} {req : TntRequest} {σ : Slot} {x : SlotVal}
    (hset : req.get σ = x ∨ ∃ s ∈ l, s.slot req.type = some σ)
    (hval : ∀ s ∈ l, s.slot req.type = some σ → s.val = x) :
    (runSetters l req).2.get σ = x := by
  rw [runSetters_last]
  cases hlast : (l.filter fun s => s.slot req.type = some σ).getLast? with
  | some s =>
    rcases List.mem_filter.mp (List.mem_of_getLast? hlast) with ⟨hs, hslot⟩
    exact hval s hs (by simpa using hslot)
  | none =>
    -- no call is for the slot
    have hnone := List.filter_eq_nil_iff.mp (List.getLast?_eq_none_iff.mp hlast)
    rcases hset with h | ⟨s, hs, hslot⟩
    · exact h
    · exact absurd hslot (by simpa using hnone s hs)

/-- A setter that has a slot succeeds.  So in a sequence that passes the arguments of a call nothing
is refused. -/
theorem runSetters_rv {l : List Setter} {req : TntRequest}
    (h : ∀ s ∈ l, ∃ σ, s.slot req.type = some σ) : ∀ rv ∈ (runSetters l req).1, rv = 0 := by
  induction l generalizing req with
  | nil => intro rv hrv; exact absurd hrv (by simp [runSetters])
  | cons s l ih =>
    intro rv hrv
    have hty := s.apply_type req
    have hcons : (runSetters (s :: l) req).1 =
      (s.apply req).1 :: (runSetters l (s.apply req).2).1 := rfl
    rw [hcons] at hrv
    rcases List.mem_cons.mp hrv with rfl | hrv
    · obtain ⟨σ, hσ⟩ := h s (by simp)
      exact Setter.apply_rv hσ
    · refine ih ?_ rv hrv
      intro t ht
      rw [hty]
      exact h t (by simp [ht])

/-- Requests with the same type and slots are compiled to the same pairs.  A request has nothing
else that the compiler looks at, so two sequences of setters are compared slot by slot. -/
theorem TntRequest.fields_congr {a b : TntRequest} (htype : a.type = b.type)
    (hget : ∀ σ, a.get σ = b.get σ) : a.fields = b.fields ∧ (a.TextFits ↔ b.TextFits) := by
  have h1 : a.spaceId = b.spaceId := SlotVal.num.inj (hget .space)
  have h2 : a.indexId = b.indexId := SlotVal.num.inj (hget .index)
  have h3 : a.offset = b.offset := SlotVal.num.inj (hget .offset)
  have h4 : a.limit = b.limit := SlotVal.num.inj (hget .limit)
  have h5 : a.iterator = b.iterator := SlotVal.num.inj (hget .iterator)
  have h6 : a.indexBase = b.indexBase := SlotVal.int.inj (hget .indexBase)
  have h7 : a.key = b.key := SlotVal.mem.inj (hget .key)
  have h8 : a.tuple = b.tuple := SlotVal.mem.inj (hget .tuple)
  unfold TntRequest.fields TntRequest.scalarFields TntRequest.tupleFields TntRequest.TextFits
  rw [htype, h1, h2, h3, h4, h5, h6, h7, h8]
  exact ⟨rfl, Iff.rfl⟩

/-! ## §3 — a direct call, through the builder. -/

/-- Both APIs offer the operation. -/
def Direct.Offered : Direct → Prop
  | .execute _ _ | .auth _ _ _ => False
  | _ => True

/-- A name as a pointer with a 32-bit length, if it is that short. -/
def cstr (text : Option Bytes) : Option CStr :=
  match text with
  | none => none
  | some t => if h : t.length < 2 ^ 32 then some ⟨t, h⟩ else none

/-- The setter calls that pass the arguments of a direct call. -/
def Direct.setters : Direct → List Setter
  | .select space index limit offset iterator key =>
    [.space space, .index index, .limit limit, .offset offset, .iterator iterator.toUInt32,
      .key key]
  | .insert space tuple | .replace space tuple => [.space space, .tuple tuple]
  | .delete space index key => [.space space, .index index, .key key]
  | .update space index key ops => [.space space, .index index, .key key, .ops ops]
  | .upsert space tuple ops => [.space space, .tuple tuple, .ops ops]
  | .call proc args | .call16 proc args => [.func (cstr proc), .tuple args]
  | .eval expr args => [.expr (cstr expr), .tuple args]
  | .ping | .execute _ _ | .auth _ _ _ => []

/-- The request these calls lead to. -/
def Direct.request (r : Direct) : TntRequest :=
  let req := tntRequestNew r.type
  match r with
  | .select space index limit offset iterator key =>
    { req with
      spaceId := space, indexId := index, limit := limit, offset := offset
      iterator := iterator.toUInt32, key := memory key }
  | .insert space tuple | .replace space tuple =>
    { req with spaceId := space, tuple := memory tuple }
  | .delete space index key => { req with spaceId := space, indexId := index, key := memory key }
  | .update space index key ops =>
    { req with spaceId := space, indexId := index, key := memory key, tuple := memory ops }
  | .upsert space tuple ops =>
    { req with spaceId := space, key := memory ops, tuple := memory tuple }
  | .call proc args | .call16 proc args | .eval proc args =>
    { req with key := proc, tuple := memory args }
  | .ping | .execute _ _ | .auth _ _ _ => req

/-- A text that is short enough is the text that the setter takes. -/
theorem cstr_eq {text : Option Bytes} {t : Bytes} (ht : text = some t) (h : t.length < 2 ^ 32) :
    cstr text = some ⟨t, h⟩ := by
  subst ht
  exact dif_pos h

/-- Every setter of a call writes the slot of the request with the value it has there, and every
slot that is not as the constructor leaves it is written. -/
theorem Direct.setters_fill [Msgpuck] [Digest] {r : Direct} (htexts : r.TextsFit)
    (hacc : r.Accepts) :
    (∀ s ∈ r.setters, ∃ σ, s.slot r.type = some σ ∧ s.val = r.request.get σ) ∧
      ∀ σ, (tntRequestNew r.type).get σ = r.request.get σ ∨
        ∃ s ∈ r.setters, s.slot r.type = some σ := by
  cases r with
  | select _ _ _ _ _ _ | insert _ _ | replace _ _ | delete _ _ _ | update _ _ _ _ | upsert _ _ _ =>
    refine ⟨?_, ?_⟩
    · simp [Direct.setters, Direct.request, Direct.type, Setter.slot, Setter.val, TntRequest.get]
    · intro σ
      cases σ <;> simp [Direct.setters, Direct.request, Direct.type, Setter.slot, TntRequest.get]
  | call proc _ | call16 proc _ | eval proc _ =>
    obtain ⟨⟨t, rfl, -⟩, -⟩ := hacc
    have hc := cstr_eq rfl (htexts t rfl)
    refine ⟨?_, ?_⟩
    · simp [Direct.setters, hc, Direct.request, Direct.type, isCall, Setter.slot, Setter.val,
        TntRequest.get]
    · intro σ
      cases σ <;> simp [Direct.setters, hc, Direct.request, Direct.type, isCall, Setter.slot,
        TntRequest.get]
  | ping => exact ⟨by simp [Direct.setters], fun σ => .inl rfl⟩
  | execute expr params => exact ⟨by simp [Direct.setters], fun σ => .inl rfl⟩
  | auth user pass salt => exact ⟨by simp [Direct.setters], fun σ => .inl rfl⟩

/-- **Filling a request**: any calls of these setters, in any order and any number of times, lead to
the request, and none fails. -/
theorem Direct.runSetters_fill [Msgpuck] [Digest] {r : Direct} (htexts : r.TextsFit)
    (hacc : r.Accepts) {l : List Setter} (hl : ∀ s, s ∈ l ↔ s ∈ r.setters) :
    (∀ rv ∈ (runSetters l (tntRequestNew r.type)).1, rv = 0) ∧
      (runSetters l (tntRequestNew r.type)).2.type = r.type ∧
      ∀ σ, (runSetters l (tntRequestNew r.type)).2.get σ = r.request.get σ := by
  obtain ⟨hset, hall⟩ := Direct.setters_fill htexts hacc
  refine ⟨?_, runSetters_type l _, ?_⟩
  · apply runSetters_rv
    intro s hs
    obtain ⟨σ, hσ, -⟩ := hset s ((hl s).mp hs)
    exact ⟨σ, hσ⟩
  · intro σ
    apply runSetters_get
    · rcases hall σ with h | ⟨s, hs, hσ⟩
      · exact .inl h
      · exact .inr ⟨s, (hl s).mpr hs, hσ⟩
    · intro s hs hσ
      obtain ⟨σ', hσ', hval⟩ := hset s ((hl s).mp hs)
      have heq : s.slot r.type = some σ := hσ
      rw [heq] at hσ'
      obtain rfl := Option.some.inj hσ'
      exact hval

/-! ## §4 — what a server reads. -/

/-- The protocol's defaults for pairs that a body may leave out. -/
def bodyDefault : BodyKey → Option Value
  | .index | .offset | .iterator => some (.uint 0)
  | _ => none

/-- What a body says for a key. -/
def readBody (pairs : List (BodyKey × Value)) (k : BodyKey) : Option Value :=
  (pairs.lookup k).or (bodyDefault k)

/-- The pair for `fieldIf`. -/
def sayIf (c : Bool) (p : BodyKey × Value) : List (BodyKey × Value) := if c then [p] else []

/-- A conditional pair is read as a conditional pair, ... -/
theorem fieldIf_reads {f : Field} {p : BodyKey × Value} (h : f.Reads p) (c : Bool) :
    List.Forall₂ Field.Reads (fieldIf c f) (sayIf c p) := by
  cases c with
  | false => exact .nil
  | true => exact .cons h .nil

/-- ... and takes no more bytes than the pair. -/
theorem fieldIf_wire_le (c : Bool) (f : Field) :
    ((fieldIf c f).map Field.wire).flatten.length ≤ f.wire.length := by
  cases c <;> simp [fieldIf]

/-- An object that passes the check has memory.  `NULL` and an empty object come to the same thing
for the setters, and an array is neither. -/
theorem memory_of_isArray {obj : StreamBuf} (h : IsArray obj) : memory obj = some obj.bytes := by
  obtain ⟨xs, henc⟩ := h
  unfold memory
  cases hd : obj.data with
  | null => exact absurd (by simp [StreamBuf.bytes, hd]) henc.ne_nil
  | live mem => rfl
  | freed => rfl

/-- The builder's pairs for a direct call: as many bytes or fewer, and the same to a server. -/
structure Agrees (fields fields' : List Field) : Prop where
  length_le : (fields'.map Field.wire).flatten.length ≤ (fields.map Field.wire).flatten.length
  reads : ∃ pairs pairs', List.Forall₂ Field.Reads fields pairs ∧
    List.Forall₂ Field.Reads fields' pairs' ∧ ∀ k, readBody pairs k = readBody pairs' k

/-- Bodies that are the same, ... -/
theorem Agrees.refl {fields : List Field} {pairs : List (BodyKey × Value)}
    (h : List.Forall₂ Field.Reads fields pairs) : Agrees fields fields :=
  ⟨Nat.le_refl _, pairs, pairs, h, h, fun _ => rfl⟩

/-- ... that leave out what is 0, ... -/
theorem select_agrees (space index limit offset : UInt32) (iterator : UInt8) {key : StreamBuf}
    (hkey : IsArray key) :
    Agrees [numField .space space.toNat, numField .index index.toNat, numField .limit limit.toNat,
        numField .offset offset.toNat, numField .iterator iterator.toNat, objectField .key key]
      ([numField .space space.toNat] ++ fieldIf (index ≠ 0) (numField .index index.toNat) ++
        [numField .limit limit.toNat] ++ fieldIf (offset ≠ 0) (numField .offset offset.toNat) ++
        fieldIf (iterator.toUInt32 ≠ 0) (numField .iterator iterator.toNat) ++
        [objectField .key key]) := by
  obtain ⟨xs, hx⟩ := objectField_reads .key hkey
  have hit : (numField .iterator iterator.toNat).Reads (.iterator, .uint iterator.toNat) := by
    simpa using numField_reads .iterator iterator.toUInt32
  refine ⟨?_, _, _, .cons (numField_reads .space space) (.cons (numField_reads .index index)
    (.cons (numField_reads .limit limit) (.cons (numField_reads .offset offset)
      (.cons hit (.cons hx .nil))))),
    List.rel_append (List.rel_append (List.rel_append (List.rel_append (List.rel_append
      (.cons (numField_reads .space space) .nil) (fieldIf_reads (numField_reads .index index) _))
      (.cons (numField_reads .limit limit) .nil)) (fieldIf_reads (numField_reads .offset offset) _))
      (fieldIf_reads hit _)) (.cons hx .nil), ?_⟩
  · have h1 := fieldIf_wire_le (index ≠ 0) (numField .index index.toNat)
    have h2 := fieldIf_wire_le (offset ≠ 0) (numField .offset offset.toNat)
    have h3 := fieldIf_wire_le (iterator.toUInt32 ≠ 0) (numField .iterator iterator.toNat)
    simp only [List.map_append, List.flatten_append, List.length_append, List.map_cons,
      List.map_nil, List.flatten_cons, List.flatten_nil, List.append_nil]
    omega
  · intro k
    -- a pair is left out only where it holds the default
    have hzero : iterator.toUInt32 = 0 → iterator = 0 := by
      intro h
      have h' := congrArg UInt32.toNat h
      rw [UInt8.toNat_toUInt32] at h'
      exact UInt8.toNat_inj.mp h'
    by_cases h1 : index = 0 <;> by_cases h2 : offset = 0 <;> by_cases h3 : iterator.toUInt32 = 0
    all_goals
      simp only [h1, h2, h3, ne_eq, not_true_eq_false, not_false_eq_true, decide_true,
        decide_false, sayIf, if_true, Bool.false_eq_true, if_false]
      first
        | (rw [hzero h3]; cases k <;> rfl)
        | (cases k <;> rfl)

/-- `tnt_delete` and `tnt_update`: the index is left out where it is 0.  `rest` are the pairs behind
it, in which the index does not occur a second time. -/
theorem index_agrees (space index : UInt32) {rest : List Field} {pairs : List (BodyKey × Value)}
    (hrest : List.Forall₂ Field.Reads rest pairs) (hkeys : pairs.lookup .index = none) :
    Agrees (numField .space space.toNat :: numField .index index.toNat :: rest)
      ([numField .space space.toNat] ++ fieldIf (index ≠ 0) (numField .index index.toNat) ++
        rest) := by
  refine ⟨?_, _, _, .cons (numField_reads .space space) (.cons (numField_reads .index index) hrest),
    List.rel_append (List.rel_append (.cons (numField_reads .space space) .nil)
      (fieldIf_reads (numField_reads .index index) _)) hrest, ?_⟩
  · have h1 := fieldIf_wire_le (index ≠ 0) (numField .index index.toNat)
    simp only [List.map_append, List.flatten_append, List.length_append, List.map_cons,
      List.map_nil, List.flatten_cons, List.flatten_nil, List.append_nil]
    omega
  · intro k
    by_cases hz : index = 0
    · subst hz
      cases k with
      | index =>
        show some (Value.uint 0) = (pairs.lookup .index).or (bodyDefault .index)
        rw [hkeys]
        rfl
      | _ => rfl
    · simp only [hz, ne_eq, not_false_eq_true, decide_true, sayIf, if_true]
      rfl

/-- ... and that write their pairs in another order.  The operations of an upsert stand in the slot
of the key, which is written before the tuple. -/
theorem upsert_agrees (space : UInt32) {tuple ops : StreamBuf} (htuple : IsArray tuple)
    (hops : IsArray ops) :
    Agrees [numField .space space.toNat, objectField .tuple tuple, objectField .ops ops]
      [numField .space space.toNat, objectField .ops ops, objectField .tuple tuple] := by
  obtain ⟨xs, hx⟩ := objectField_reads .tuple htuple
  obtain ⟨ys, hy⟩ := objectField_reads .ops hops
  refine ⟨?_, _, _, .cons (numField_reads .space space) (.cons hx (.cons hy .nil)),
    .cons (numField_reads .space space) (.cons hy (.cons hx .nil)), ?_⟩
  · simp only [List.map_cons, List.map_nil, List.flatten_cons, List.flatten_nil,
      List.length_append, List.length_nil]
    omega
  · intro k
    cases k <;> rfl

/-- The request of a direct call is compiled to pairs that agree with the call's.  By cases on the
call.  Each is one of the three differences above, or none: for most calls the two encoders write
the same pairs in the same order. -/
theorem Direct.request_fields [Msgpuck] [Digest] {r : Direct} (hboth : r.Offered)
    (htexts : r.TextsFit) (hacc : r.Accepts) :
    ∃ fields', r.request.fields = some fields' ∧ Agrees r.fields fields' := by
  obtain ⟨pairs, hpairs⟩ := r.fields_reads htexts hacc
  cases r with
  | select space index limit offset iterator key =>
    refine ⟨_, ?_, select_agrees space index limit offset iterator hacc⟩
    simp [Direct.request, Direct.type, tntRequestNew, TntRequest.fields, memory_of_isArray hacc,
      keyField, TntRequest.scalarFields, TntRequest.tupleFields, fieldIf, RequestType.num,
      objectField]
  | insert space tuple | replace space tuple =>
    refine ⟨_, ?_, .refl hpairs⟩
    simp [Direct.request, Direct.type, tntRequestNew, TntRequest.fields, memory_of_isArray hacc,
      TntRequest.scalarFields, TntRequest.tupleFields, fieldIf, RequestType.num, Direct.fields,
      objectField]
  | delete space index key =>
    obtain ⟨xs, hx⟩ := objectField_reads .key hacc
    refine ⟨_, ?_, index_agrees space index (.cons hx .nil) rfl⟩
    simp [Direct.request, Direct.type, tntRequestNew, TntRequest.fields, memory_of_isArray hacc,
      keyField, TntRequest.scalarFields, TntRequest.tupleFields, fieldIf, RequestType.num,
      objectField]
  | update space index key ops =>
    obtain ⟨xs, hx⟩ := objectField_reads .key hacc.1
    obtain ⟨ys, hy⟩ := objectField_reads .tuple hacc.2
    refine ⟨_, ?_, index_agrees space index (.cons hx (.cons hy .nil)) rfl⟩
    simp [Direct.request, Direct.type, tntRequestNew, TntRequest.fields, memory_of_isArray hacc.1,
      memory_of_isArray hacc.2, keyField, TntRequest.scalarFields, TntRequest.tupleFields, fieldIf,
      RequestType.num, objectField]
  | upsert space tuple ops =>
    -- the builder writes the operations where an update has its tuple
    refine ⟨_, ?_, upsert_agrees space hacc.1 hacc.2⟩
    simp [Direct.request, Direct.type, tntRequestNew, TntRequest.fields, memory_of_isArray hacc.1,
      memory_of_isArray hacc.2, keyField, TntRequest.scalarFields, TntRequest.tupleFields, fieldIf,
      RequestType.num, objectField]
  | call proc args | call16 proc args | eval proc args =>
    obtain ⟨⟨t, rfl, -⟩, hargs⟩ := hacc
    refine ⟨_, ?_, .refl hpairs⟩
    simp [Direct.request, Direct.type, tntRequestNew, TntRequest.fields, memory_of_isArray hargs,
      keyField, TntRequest.scalarFields, TntRequest.tupleFields, fieldIf, RequestType.num,
      Direct.fields, objectField]
  | ping =>
    refine ⟨_, ?_, .refl hpairs⟩
    simp [Direct.request, Direct.type, tntRequestNew, TntRequest.fields, TntRequest.scalarFields,
      TntRequest.tupleFields, fieldIf, RequestType.num, Direct.fields]
  | execute expr params => exact absurd hboth (by simp [Direct.Offered])
  | auth user pass salt => exact absurd hboth (by simp [Direct.Offered])

/-- A package with fewer pair bytes is no longer.  The size that is bounded for the direct encoder
bounds the other one too. -/
theorem packageWire_length_le (type : RequestType) (sync : Nat) {fields fields' : List Field}
    (h : (fields'.map Field.wire).flatten.length ≤ (fields.map Field.wire).flatten.length)
    (hlen : fields'.length < 16) (hlen' : fields.length < 16) :
    (packageWire type sync fields').length ≤ (packageWire type sync fields).length := by
  have hone : ∀ n < 16, (mapForm.min n).length = 1 := by decide
  simp only [packageWire, bodyWire, List.length_append, hone _ hlen, hone _ hlen']
  omega

/-- **The two APIs agree.**  Where the direct call reaches `writev`, filling a request of its type
through the setters and compiling it reaches `writev` too, with the same sync and the same counter
afterwards.  Both messages carry a right length prefix and the same header, the direct one the pairs
of the call, and a server reads the same body from both.  The bytes of the two need not be the same,
so nothing is said of them beyond the header: the compiled body may be shorter, and it may have its
pairs in another order. -/
theorem tntRequestCompile_agrees [Msgpuck] [Digest] {r : Direct} (hboth : r.Offered)
    (htexts : r.TextsFit) {reqid : UInt64}
    (hreset : reqid &&& 0x7fffffffffffffff ≠ 0x7fffffffffffffff)
    (hsize : (packageWire r.type reqid.toNat r.fields).length < 2 ^ 64) {l : List Setter}
    (hl : ∀ s, s ∈ l ↔ s ∈ r.setters) {iov : List Bytes} {reqid' : UInt64}
    (hdirect : r.exec reqid = some (.writev iov, reqid')) :
    (∀ rv ∈ (runSetters l (tntRequestNew r.type)).1, rv = 0) ∧
      ∃ iov', tntRequestCompile reqid (runSetters l (tntRequestNew r.type)).2 =
          some (.writev iov', reqid', reqid) ∧
        ∃ pairs pairs', List.Forall₂ Field.Reads r.fields pairs ∧
          Carries iov.flatten r.type reqid.toNat pairs ∧
          Carries iov'.flatten r.type reqid.toNat pairs' ∧
          ∀ k, readBody pairs k = readBody pairs' k := by
  have hacc := Direct.accepts_of_exec hdirect
  obtain ⟨v, hexec, hv⟩ := r.exec_sends reqid htexts hacc
  obtain ⟨iov₀, hsend, hwire⟩ := sendPackage_wire hv hsize
  rw [hdirect, hsend] at hexec
  obtain ⟨hsent, rfl⟩ := Prod.mk.inj (Option.some.inj hexec)
  obtain rfl := Sent.writev.inj hsent
  obtain ⟨hrvs, htype, hget⟩ := Direct.runSetters_fill htexts hacc hl
  set req := (runSetters l (tntRequestNew r.type)).2 with hreq
  have hrt : r.request.type = r.type := by cases r <;> rfl
  obtain ⟨hcongr, htext⟩ := TntRequest.fields_congr (htype.trans hrt.symm) hget
  obtain ⟨fields', hf', hagree⟩ := Direct.request_fields hboth htexts hacc
  have hf : req.fields = some fields' := hcongr.trans hf'
  have hfit : req.TextFits := by
    rw [htext]
    intro hty key hkey
    cases r with
    | call proc args | call16 proc args | eval proc args => exact htexts key hkey
    | _ => exact absurd hty (by simp [Direct.request, Direct.type, tntRequestNew])
  -- compiling takes the id of the stream, as the direct call does
  have hnext : nextSync reqid (some 0x7fffffffffffffff) = reqid := by
    simp [nextSync, hreset]
  have hcount := TntRequest.fields_length hf
  have hcount₀ : r.fields.length ≤ 6 := by
    cases r <;> simp [Direct.fields]
  -- the builder leaves zeros out, so its package is not longer
  have hle := packageWire_length_le r.type reqid.toNat hagree.length_le (by omega) (by omega)
  have hsize' : (packageWire req.type (nextSync reqid (some 0x7fffffffffffffff)).toNat
      fields').length < 2 ^ 64 := by
    rw [hnext, htype]
    exact Nat.lt_of_le_of_lt hle hsize
  obtain ⟨iov', hcompile, hwire'⟩ := tntRequestWriteout_sends hf hfit hsize'
  rw [hnext] at hcompile hwire'
  rw [htype] at hwire'
  obtain ⟨pairs, pairs', hp, hp', hread⟩ := hagree.reads
  refine ⟨hrvs, iov', hcompile, pairs, pairs', hp, ?_, ?_, hread⟩
  · rw [hwire]
    exact messageWire_carries r.type reqid.toNat_lt hp (by omega)
  · rw [hwire']
    exact messageWire_carries r.type reqid.toNat_lt hp' (by omega)

/-- An upsert with its setters called in another order, one of them twice.  The last call for the
slot decides, and the order of the others does not matter. -/
theorem tntRequestCompile_upsert :
    let obj := objectOf [0x90]
    let l : List Setter := [.ops obj, .tuple obj, .space 512, .ops obj]
    ∃ iov', @tntRequestCompile Msgpuck.reference 1 (runSetters l (tntRequestNew .upsert)).2 =
      some (.writev iov', 2, 1) := by
  have hacc : @Direct.Accepts zeroDigest (.upsert 512 (objectOf [0x90]) (objectOf [0x90])) :=
    ⟨isArray_empty, isArray_empty⟩
  obtain ⟨iov, hexec, -⟩ := @Direct.exec_sends Msgpuck.reference zeroDigest
    (.upsert 512 (objectOf [0x90]) (objectOf [0x90])) 1 trivial hacc
  obtain ⟨-, iov', h, -⟩ := @tntRequestCompile_agrees Msgpuck.reference zeroDigest
    (.upsert 512 (objectOf [0x90]) (objectOf [0x90])) trivial trivial 1 (by decide) (by decide)
    [.ops (objectOf [0x90]), .tuple (objectOf [0x90]), .space 512, .ops (objectOf [0x90])]
    (by intro s; simp only [Direct.setters, List.mem_cons, List.not_mem_nil, or_false]; tauto)
    _ 2 hexec
  exact ⟨iov', h⟩

end TarantoolC.Request
