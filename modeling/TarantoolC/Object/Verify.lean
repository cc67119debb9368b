/-
# TarantoolC.Object.Verify — `tnt_object_verify` on every object.

The function looks at the type in the first byte before it checks that there is a first byte.  With
a type to compare, an object without bytes (new, or just reset) is read outside of its data; without
one, `mp_check` finds that there is nothing.

`Obj.Whole`: in every state reached, the data of an object lie within its block, unless the block
was released.  `tntObjectVerify_safe_iff`: where the check does what it is for, and what that means
for the request functions.

The second half of the theorem is about the callers.  Every request function that takes objects
verifies them before anything is encoded, in the order of its arguments, and returns -1 at the first
that fails; so a request whose objects are not exactly one array each sends nothing and uses no sync
number.  The objects there have data; one without is the case in which the type is looked at too
early.
-/
import TarantoolC.Object.Calls
import TarantoolC.Object.Replay
import TarantoolC.Request.Direct

namespace TarantoolC.Object

open MsgPack Msgpuck

/-! ## §1 — the data of an object lie in its block.

Also behind a close in the packed mode, which has made room for a header and counts it, and behind
one on a buffer that is the user's. -/

/-- The buffer, as if its block were its own. -/
def ownBuf (sb : StreamBuf) : StreamBuf := { sb with fixed := false }

def Obj.owned (o : Obj) : Obj := { o with s := { o.s with sb := ownBuf o.s.sb } }

/-- The block was released, or the data lie within it. -/
def Obj.Whole (o : Obj) : Prop := o.s.sb.data = .freed ∨ (ownBuf o.s.sb).WF

/-- Making room takes no notice of whose block it is. -/
theorem tntSbufObjectResize_own (A : Allocator) (sb : StreamBuf) (n : Nat) :
    tntSbufObjectResize A (ownBuf sb) n =
      (tntSbufObjectResize A sb n).map fun p => (p.1, ownBuf p.2) := by
  unfold tntSbufObjectResize
  by_cases hroom : sb.size + n > sb.alloc
  · rw [if_pos hroom, if_pos (show (ownBuf sb).size + n > (ownBuf sb).alloc from hroom)]
    show (sb.data.contents.bind _) = (sb.data.contents.bind _).map _
    cases sb.data.contents with
    | none => rfl
    | some old =>
      simp only [Option.bind_some]
      cases hre : A.realloc old (if 2 * sb.alloc < sb.size + n then sb.size + n else 2 * sb.alloc) with
      | none =>
        have hre' : A.realloc old (if 2 * (ownBuf sb).alloc < (ownBuf sb).size + n
          then (ownBuf sb).size + n else 2 * (ownBuf sb).alloc) = none := hre
        simp only [hre']
        rfl
      | some nd =>
        have hre' : A.realloc old (if 2 * (ownBuf sb).alloc < (ownBuf sb).size + n
          then (ownBuf sb).size + n else 2 * (ownBuf sb).alloc) = some nd := hre
        simp only [hre']
        rfl
  · rw [if_neg hroom, if_neg (show ¬ (ownBuf sb).size + n > (ownBuf sb).alloc from hroom)]
    rfl

section Whole

variable [Msgpuck] {A : ObjAllocator} {o o' : Obj}

omit [Msgpuck] in
/-- Making room goes the same way on the block of the object alone. -/
theorem widen_own {sb sb' : StreamBuf} {offset sz : Nat} {ok : Bool}
    (h : widen A sb offset sz = some (ok, sb')) :
    widen A (ownBuf sb) offset sz = some (ok, ownBuf sb') := by
  unfold widen at h ⊢
  split at h
  · next hsz =>
    simp only [bind, Option.bind_eq_some_iff] at h
    obtain ⟨⟨room, sb₁⟩, hres, h⟩ := h
    rw [if_pos hsz, tntSbufObjectResize_own, hres]
    simp only [bind, Option.map_some, Option.bind_some]
    -- without room nothing is moved; with it both move the same bytes to the same place
    cases room with
    | false =>
      obtain ⟨rfl, rfl⟩ := Prod.mk.inj (Option.some.inj h)
      rfl
    | true =>
      simp only [Bool.not_true, Bool.false_eq_true, if_false] at h ⊢
      split at h
      · exact absurd h (by simp)
      · next hfits =>
        simp only [Option.bind_eq_some_iff] at h
        obtain ⟨data, hmove, h⟩ := h
        obtain ⟨rfl, rfl⟩ := Prod.mk.inj (Option.some.inj h)
        rw [if_neg (show ¬ (ownBuf sb₁).size < offset + 1 from hfits)]
        simp only [Option.bind_eq_some_iff]
        exact ⟨data, hmove, rfl⟩
  · next hsz =>
    obtain ⟨rfl, rfl⟩ := Prod.mk.inj (Option.some.inj h)
    rw [if_neg hsz]

/-- ... and neither does writing a header. -/
theorem writeHeader_own {e : SboStack} {rv : Int} (h : writeHeader A o e = some (rv, o')) :
    writeHeader A o.owned e = some (rv, o'.owned) := by
  obtain ⟨s, stack, stackSize, stackAlloc, type⟩ := o
  unfold writeHeader at h ⊢
  cases type with
  -- nothing is written
  | simple =>
    obtain ⟨rfl, rfl⟩ := Prod.mk.inj (Option.some.inj h)
    rfl
  -- a store of five bytes, at the same place of both blocks
  | sparse =>
    simp only [bind, Option.bind_eq_some_iff] at h
    obtain ⟨data, hs, h⟩ := h
    obtain ⟨rfl, rfl⟩ := Prod.mk.inj (Option.some.inj h)
    show (s.sb.data.store e.offset (sparseHeader e.type e.size.toNat)).bind _ = _
    rw [hs]
    rfl
  -- room is made first, and may fail
  | packed =>
    simp only [bind, Option.bind_eq_some_iff] at h
    obtain ⟨⟨ok, sb⟩, hw, h⟩ := h
    show (widen A (ownBuf s.sb) e.offset (packedSize e.type e.size.toNat)).bind _ = _
    rw [widen_own hw]
    cases ok with
    | false =>
      obtain ⟨rfl, rfl⟩ := Prod.mk.inj (Option.some.inj h)
      rfl
    | true =>
      simp only [Bool.not_true, Bool.false_eq_true, if_false, Option.bind_eq_some_iff] at h
      obtain ⟨data, hs, h⟩ := h
      obtain ⟨rfl, rfl⟩ := Prod.mk.inj (Option.some.inj h)
      show (sb.data.store e.offset (packedHeader e.type e.size.toNat)).bind _ = _
      rw [hs]
      rfl

omit [Msgpuck] in
/-- A buffer in order is whole. -/
theorem Obj.Whole.of_wf (h : o.s.sb.WF) : o.Whole := .inr ⟨rfl, h.block, h.size_le⟩

omit [Msgpuck] in
/-- The property is one of the stream. -/
theorem Obj.Whole.of_s (h : o.Whole) (hs : o'.s.sb = o.s.sb) : o'.Whole := by
  unfold Obj.Whole
  rw [hs]
  exact h

omit [Msgpuck] in
/-- A released block is `freed`, if there was one. -/
theorem Obj.Whole.freed (h : (ownBuf o.s.sb).WF) : o.freed.Whole := by
  have hblock := h.block
  unfold Obj.Whole Obj.freed
  rcases hblock with ⟨hnull, halloc⟩ | ⟨mem, hlive, -⟩
  · have hd : o.s.sb.data = .null := hnull
    refine .inr ⟨rfl, .inl ⟨?_, halloc⟩, h.size_le⟩
    show o.s.sb.data.free = .null
    rw [hd]
    rfl
  · have hd : o.s.sb.data = .live mem := hlive
    left
    show o.s.sb.data.free = .freed
    rw [hd]
    rfl

omit [Msgpuck] in
/-- Writing keeps it, ... -/
theorem Written.whole {bs : Bytes} {rv : Int} (h : Written A o bs (some (rv, o'))) (ho : o.Sane)
    (hw : o.Whole) (hpos : 0 < bs.length) : o'.Whole := by
  rcases ho.buf with hfix | ⟨hfix, hfreed⟩ | hwf
  · obtain ⟨-, rfl⟩ := Prod.mk.inj (Option.some.inj (h.fixed hfix))
    exact hw
  · exact absurd (h.dangling hfix hfreed hpos) (by simp)
  · rcases h.owned hwf hpos with ⟨hr, -⟩ | ⟨sb', hr, happ⟩
    · obtain ⟨-, rfl⟩ := Prod.mk.inj (Option.some.inj hr)
      exact Obj.Whole.freed ⟨rfl, hwf.block, hwf.size_le⟩
    · obtain ⟨-, rfl⟩ := Prod.mk.inj (Option.some.inj hr)
      exact .of_wf happ.wf

/-- Every call keeps the data in the block. -/
theorem Call.exec_whole {c : Call} {rv : Int} (ho : o.Sane) (hw : o.Whole)
    (h : c.exec A o = some (rv, o')) : o'.Whole := by
  have hcount : (countChild o).Whole := hw.of_s (congrArg BufStream.sb (countChild_s o))
  cases hv : c.leafValue with
  | some v =>
    obtain ⟨hwritten, hpos⟩ := Call.exec_written hv A o
    rw [h] at hwritten
    exact hwritten.whole ho.countChild hcount hpos
  | none =>
    cases hk : c.opens with
    | some kind =>
      rcases Call.exec_opens A ho.stacked hk with ⟨hr, -, -⟩ | ⟨stack, alloc, hroom, hr⟩
      · rw [h] at hr
        obtain ⟨-, rfl⟩ := Prod.mk.inj (Option.some.inj hr)
        exact hcount
      · rw [h] at hr
        -- the entry is on the stack, and the opening bytes are written like a value
        have hwritten : Written A ((countChild o).push stack alloc kind) (c.openingBytes o.type)
            (some (rv, o')) := .inl hr
        exact hwritten.whole (hroom.sane ho.countChild kind) hcount
          (Call.openingBytes_pos hk o.type)
    | none =>
      cases c with
      | containerClose =>
        have h : tntObjectContainerClose A o = some (rv, o') := h
        rcases containerClose_cases A ho.stacked with ⟨-, hr⟩ | ⟨e, -, -, hr⟩
        · rw [hr] at h
          obtain ⟨-, rfl⟩ := Prod.mk.inj (Option.some.inj h)
          exact hw
        · rw [hr] at h
          rcases hw with hfreed | hwf
          · -- the block is gone already, and stays so
            rcases writeHeader_cases h with ⟨-, -, rfl⟩ | ⟨sb, -, rfl, -, -, hdata⟩
            · left
              show o.s.sb.data.free = .freed
              rw [hfreed]
              rfl
            · exact .inl (hdata hfreed)
          · -- as if the block were its own
            rcases writeHeader_cases (writeHeader_own h) with ⟨-, -, hsame⟩ | ⟨sb, -, hsame, -, hwf', -⟩
            · have hdata : o'.s.sb.data = o.s.sb.data.free :=
                congrArg (fun o : Obj => o.s.sb.data) hsame
              have hown : ownBuf o'.s.sb = ownBuf o.pop.freed.s.sb :=
                congrArg (fun o : Obj => o.s.sb) hsame
              have hfreed : o.pop.freed.Whole := Obj.Whole.freed hwf
              unfold Obj.Whole at hfreed ⊢
              rw [hown]
              rw [hdata]
              exact hfreed
            · right
              have hown : ownBuf o'.s.sb = sb := congrArg (fun o : Obj => o.s.sb) hsame
              rw [hown]
              exact hwf' hwf
      | setType type =>
        rcases tntObjectType_cases (Option.some.inj h) with ⟨-, rfl⟩ | ⟨-, rfl⟩
        · exact hw
        · exact hw
      | reset =>
        obtain ⟨-, rfl⟩ := Prod.mk.inj (Option.some.inj h)
        exact hw.imp id fun hwf => ⟨rfl, hwf.block, Nat.zero_le _⟩
      | addArray size => exact absurd hk (by simp [Call.opens])
      | addMap size => exact absurd hk (by simp [Call.opens])
      | _ => exact absurd hv (by simp [Call.leafValue])

/-- ... and so do all calls: **the data of every reached object lie in its block**, or the block is
gone. -/
theorem Reached.whole (h : Reached o) : o.Whole := by
  induction h with
  | new _ => exact .of_wf tntBuf_wf
  | asUser _ buf _ => exact .inr ⟨rfl, .inr ⟨buf, rfl, rfl⟩, Nat.le_refl _⟩
  | call ho hc ih => exact Call.exec_whole ho.sane ih hc

end Whole

/-! ## §2 — the check.

With a type and without, on data and on none; `mp_check` is asked for the whole of the data and must
come to its end. -/

section Verify

variable [Msgpuck]

/-- `tnt_object_verify` on the buffer of an object.  `none` is a read outside of `data[0 .. size)`,
or through a released pointer. -/
def verifyBuf (sb : StreamBuf) (type : Option Ty) : Option Int :=
  if sb.data = .freed ∧ sb.size ≠ 0 then none else tntObjectVerify sb.bytes type

/-- The check does what it is for: it looks at the data only, and accepts one complete value of the
type asked for. -/
def Verifies (sb : StreamBuf) (type : Option Ty) : Prop :=
  ∃ rv, verifyBuf sb type = some rv ∧ (rv = 0 ∨ rv = -1) ∧
    (rv = 0 ↔ ∃ v, Encodes v sb.bytes ∧ ∀ t, type = some t → v.ty = t)

/-- Without data there is no value, and no type to look at. -/
theorem tntObjectVerify_nil (type : Option Ty) :
    tntObjectVerify [] type = if type = none then some (-1) else none := by
  cases type with
  | none =>
    rcases mpCheck_cases [] with ⟨hcheck, -⟩ | ⟨k, -, hiff⟩
    · simp [tntObjectVerify, hcheck]
    · obtain ⟨v, henc⟩ := hiff.mp (Nat.not_lt_zero k)
      exact absurd rfl henc.ne_nil
  | some t => rfl

/-- Where the check does what it is for. -/
theorem verifies_iff {o : Obj} (ho : o.Whole) (type : Option Ty) :
    Verifies o.s.sb type ↔
      (type = none ∨ o.s.sb.size ≠ 0) ∧ (o.s.sb.data ≠ .freed ∨ o.s.sb.size = 0) := by
  have hnothing : o.s.sb.bytes = [] → ¬ (o.s.sb.data = .freed ∧ o.s.sb.size ≠ 0) →
      (Verifies o.s.sb type ↔ type = none) := by
    intro hnil hlive
    unfold Verifies
    rw [verifyBuf, if_neg hlive, hnil, tntObjectVerify_nil]
    cases type with
    | none =>
      refine ⟨fun _ => rfl, fun _ => ⟨-1, rfl, .inr rfl, fun h => absurd h (by decide), ?_⟩⟩
      rintro ⟨v, henc, -⟩
      exact absurd rfl henc.ne_nil
    | some t => simp
  by_cases hsize : o.s.sb.size = 0
  · have hnil : o.s.sb.bytes = [] := by
      unfold StreamBuf.bytes
      split
      · rw [hsize, List.take_zero]
      · rfl
    rw [hnothing hnil (fun h => h.2 hsize)]
    simp [hsize]
  · rcases ho with hfreed | hwf
    · simp [Verifies, verifyBuf, hfreed, hsize]
    · -- there is data, in a block that has not been released
      have hlen : o.s.sb.bytes.length = o.s.sb.size := hwf.bytes_length
      have hne : o.s.sb.bytes ≠ [] := by
        intro hnil
        rw [hnil] at hlen
        exact hsize hlen.symm
      have hlive : o.s.sb.data ≠ .freed := by
        intro hfreed
        rcases hwf.block with ⟨hnull, -⟩ | ⟨mem, hmem, -⟩
        · exact absurd (hfreed.symm.trans hnull) (by simp)
        · exact absurd (hfreed.symm.trans hmem) (by simp)
      have hspec := tntObjectVerify_spec hne type
      simp [Verifies, verifyBuf, hlive, hsize, hspec]

/-! ## §3 — the request functions.

Each verifies its objects before it encodes anything, so what is refused leaves no trace. -/

/-- The objects a request function checks, in order. -/
def objects : Request.Direct → List StreamBuf
  | .select _ _ _ _ _ key | .delete _ _ key => [key]
  | .insert _ tuple | .replace _ tuple => [tuple]
  | .update _ _ key ops => [key, ops]
  | .upsert _ tuple ops => [tuple, ops]
  | .call _ args | .call16 _ args | .eval _ args | .execute _ args => [args]
  | .ping | .auth _ _ _ => []

/-- An object with bytes that is no array is refused. -/
theorem verified_refuses {reqid : UInt64} {obj : StreamBuf} (hne : obj.bytes ≠ [])
    (hno : ¬ Request.IsArray obj) (rest : Option (Request.Sent × UInt64)) :
    Request.verified reqid obj rest = some (.refused, reqid) := by
  obtain ⟨rv, hrv, -, hiff⟩ := tntObjectVerify_spec hne (some .array)
  have hbad : rv ≠ 0 := by
    intro hzero
    rw [hzero] at hrv
    exact hno (tntObjectVerify_array_iff.mp hrv)
  simp [Request.verified, hrv, hbad]

/-- The requests with a text and an array. -/
theorem textAndArray_refuses {reqid : UInt64} {op : Proto.RequestType} {k k' : Proto.BodyKey}
    {text : Option Bytes} {array : StreamBuf} (hne : array.bytes ≠ [])
    (hno : ¬ ((∃ t, text = some t ∧ t ≠ []) ∧ Request.IsArray array)) :
    Request.textAndArray reqid op k k' text array = some (.refused, reqid) := by
  unfold Request.textAndArray
  cases text with
  | none => rfl
  | some t =>
    show (if t.length = 0 then _ else _) = _
    split
    · rfl
    · next hlen =>
      apply verified_refuses hne
      intro harray
      exact hno ⟨⟨t, rfl, fun hnil => hlen (by rw [hnil]; rfl)⟩, harray⟩

/-- A request whose objects all have bytes is refused if its arguments are not acceptable. -/
theorem refuses [Request.Digest] {r : Request.Direct} {reqid : UInt64}
    (hne : ∀ obj ∈ objects r, obj.bytes ≠ []) (hauth : r.type ≠ .auth) (hno : ¬ r.Accepts) :
    r.exec reqid = some (.refused, reqid) := by
  cases r with
  | select space index limit offset iterator key =>
    exact verified_refuses (hne key List.mem_cons_self) hno _
  | insert space tuple => exact verified_refuses (hne tuple List.mem_cons_self) hno _
  | replace space tuple => exact verified_refuses (hne tuple List.mem_cons_self) hno _
  | delete space index key => exact verified_refuses (hne key List.mem_cons_self) hno _
  | update space index key ops =>
    show Request.tntUpdate reqid space index key ops = _
    by_cases hkey : Request.IsArray key
    · rw [Request.tntUpdate, Request.verified_of_isArray hkey]
      exact verified_refuses (hne ops (by simp [objects])) (fun hops => hno ⟨hkey, hops⟩) _
    · exact verified_refuses (hne key List.mem_cons_self) hkey _
  | upsert space tuple ops =>
    show Request.tntUpsert reqid space tuple ops = _
    by_cases htuple : Request.IsArray tuple
    · rw [Request.tntUpsert, Request.verified_of_isArray htuple]
      exact verified_refuses (hne ops (by simp [objects])) (fun hops => hno ⟨htuple, hops⟩) _
    · exact verified_refuses (hne tuple List.mem_cons_self) htuple _
  | call proc args => exact textAndArray_refuses (hne args List.mem_cons_self) hno
  | call16 proc args => exact textAndArray_refuses (hne args List.mem_cons_self) hno
  | eval expr args => exact textAndArray_refuses (hne args List.mem_cons_self) hno
  | execute expr params => exact textAndArray_refuses (hne params List.mem_cons_self) hno
  | ping => exact absurd trivial hno
  | auth user pass salt => exact absurd rfl hauth

/-- **Where `tnt_object_verify` is safe and right**: on every object that is reached, exactly if it
is not asked for a type or the object has data, and the data were not lost with their block.  So the
request functions refuse what is no array, if no object handed to them is empty.  The function looks
at the first byte for its type before it checks anything, and it checks with a length.  An object
without data has no first byte. -/
theorem tntObjectVerify_safe_iff [Request.Digest] :
    (∀ (o : Obj) (type : Option Ty), Reached o → (Verifies o.s.sb type ↔
      (type = none ∨ o.s.sb.size ≠ 0) ∧ (o.s.sb.data ≠ .freed ∨ o.s.sb.size = 0))) ∧
    ∀ (r : Request.Direct) (reqid : UInt64), (∀ obj ∈ objects r, obj.bytes ≠ []) →
      r.type ≠ .auth → ¬ r.Accepts → r.exec reqid = some (.refused, reqid) := by
  refine ⟨?_, ?_⟩
  · intro o type ho
    exact verifies_iff ho.whole type
  · intro r reqid hne hauth hno
    exact refuses hne hauth hno

end Verify

/-- An object that holds `nil`: it is no array, and not taken for one. -/
theorem tntObjectVerify_safe_nil :
    ∃ o : Obj, @Reached Msgpuck.reference o ∧ o.bytes = [0xc0] ∧
      @Verifies Msgpuck.reference o.s.sb (some .array) ∧
      @Request.Direct.exec Msgpuck.reference Request.zeroDigest 7 (.delete 512 0 o.s.sb) =
        some (.refused, 7) := by
  have hcall : @Call.exec Msgpuck.reference zeroingObj (tntObject zeroStack) .addNil =
      some (1, _) := rfl
  have hreached := @Reached.call Msgpuck.reference _ _ _ _ _ (@Reached.new Msgpuck.reference zeroStack rfl)
    hcall
  obtain ⟨hiff, hrefuse⟩ := @tntObjectVerify_safe_iff Msgpuck.reference Request.zeroDigest
  refine ⟨_, hreached, by decide, (hiff _ (some .array) hreached).mpr (by decide), ?_⟩
  refine hrefuse (.delete 512 0 _) 7 ?_ (by decide) ?_
  · intro obj hobj
    rw [List.mem_singleton.mp hobj]
    decide
  · rintro ⟨xs, henc⟩
    exact absurd (@tntObjectVerify_array_iff Msgpuck.reference _ |>.mpr ⟨xs, henc⟩) (by decide)

/-- A new object as a key: the type is looked up where there is nothing. -/
theorem tntObjectVerify_reads_nothing :
    @Reached Msgpuck.reference (tntObject zeroStack) ∧
      @verifyBuf Msgpuck.reference (tntObject zeroStack).s.sb (some .array) = none ∧
      ¬ @Verifies Msgpuck.reference (tntObject zeroStack).s.sb (some .array) ∧
      @Request.Direct.exec Msgpuck.reference Request.zeroDigest 7
        (.delete 512 0 (tntObject zeroStack).s.sb) = none := by
  refine ⟨@Reached.new Msgpuck.reference zeroStack rfl, rfl, ?_, rfl⟩
  rintro ⟨rv, hrv, -⟩
  exact absurd hrv (by simp [verifyBuf, tntObject, tntObjectType, tntBuf, StreamBuf.bytes,
    @tntObjectVerify_nil Msgpuck.reference])

end TarantoolC.Object
