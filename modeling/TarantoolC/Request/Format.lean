/-
# TarantoolC.Request.Format — `tnt_request_set_key_format` and `tnt_request_set_tuple_format`.

A request may own two objects.  A format setter resets the object (or makes it, the first time), has
the format encoded into it, and lets the key (the tuple) point to the object's bytes.  So here the
key is a POINTER (`Pointer`), and what it reads depends on what the object's block holds by now.

The header file promises `-1` on a format error.  What counts as an error is up to the calls the
format makes: of the formats that are ill-formed (`WellFormed`) exactly those are reported whose
track (`TarantoolC.Object.Reject`) ends in a refusal.  And a format that is not reported is stored,
whatever has become of its headers: these agree with what the brackets of the format say
(`HeadersAgree`) exactly where nothing was lost on the way (`Stored`).

`tntRequestSetFormat_reports_iff` puts the two together.  A setter does what is expected of it, which
is to report an ill-formed format and never to store a key or tuple whose headers disagree with its
contents, exactly for the formats that are refused and those that are stored whole.
-/
import TarantoolC.Object.Layout
import TarantoolC.Request.Builder

namespace TarantoolC.Request

open MsgPack Msgpuck Proto Object

/-! ## §1 — slots. -/

/-- `req->key` with `req->key_end`: `NULL`, memory of the caller, or the first `len` bytes of the
object's block while that has `alloc` bytes.  A block that grows is another block, and no two of an
object have the same size. -/
inductive Pointer where
  | null
  | user (bytes : Bytes)
  | block (alloc len : Nat)
  deriving Repr, DecidableEq

/-- The key of a request, or its tuple, and the object it may own for it. -/
structure PtrSlot where
  ptr : Pointer
  object : Option Obj
  deriving Repr, DecidableEq

/-- The bytes between the pointers, `none` for `NULL`; undefined if the block is gone. -/
def PtrSlot.read (slot : PtrSlot) : Option (Option Bytes) :=
  match slot.ptr with
  | .null => some none
  | .user bytes => some (some bytes)
  | .block alloc len => do
    let o ← slot.object
    match o.s.sb.data with
    | .live mem => if o.s.sb.alloc = alloc then some (some (mem.take len)) else none
    | _ => none

/-- `TNT_SBUF_DATA` and `TNT_SBUF_SIZE` of an object. -/
def pointer (o : Obj) : Pointer :=
  match o.s.sb.data with
  | .null => .null
  | _ => .block o.s.sb.alloc o.s.sb.size

/-- `struct tnt_request` with its objects; `req` holds all but the key and the tuple. -/
structure PtrRequest where
  req : TntRequest
  key : PtrSlot
  tuple : PtrSlot
  deriving Repr, DecidableEq

/-- A request without key, tuple and objects. -/
def PtrRequest.new (type : RequestType) : PtrRequest where
  req := tntRequestNew type
  key := ⟨.null, none⟩
  tuple := ⟨.null, none⟩

/-- The request that is compiled: its key and tuple are read. -/
def PtrRequest.load (r : PtrRequest) : Option TntRequest := do
  let key ← r.key.read
  let tuple ← r.tuple.read
  return { r.req with key := key, tuple := tuple }

/-- `tnt_object(NULL)`; `NULL` if one of its allocations fails. -/
def newObject (N : ObjAllocator) : Option Obj := (N.newStack 8).map tntObject

/-- The object the format goes into: the one of the slot, reset, or a new one. -/
def PtrSlot.blank (slot : PtrSlot) (N : ObjAllocator) : Option Obj :=
  match slot.object with
  | some o => some (tntObjectReset o)
  | none => newObject N

section Setters

variable [Msgpuck] (toFloat : UInt64 → UInt32)

/-- The two format setters, which differ in the slot they set.  `N` answers for a new object and
`A k` for the `k`th call of the format. -/
def setFormat (N : ObjAllocator) (A : Nat → ObjAllocator) (slot : PtrSlot) (fmt : List Char)
    (args : List VaArg) : Option (Int × PtrSlot) :=
  match slot.blank N with
  | none => some (-1, slot)
  | some o => do
    let (res, o) ← tntObjectVformat toFloat A o fmt args
    let slot := { slot with object := some o }
    if res = -1 then return (-1, slot)
    return (0, { slot with ptr := pointer o })

/-- `tnt_request_set_key_format`. -/
def tntRequestSetKeyFormat (N : ObjAllocator) (A : Nat → ObjAllocator) (r : PtrRequest)
    (fmt : List Char) (args : List VaArg) : Option (Int × PtrRequest) := do
  let (rv, slot) ← setFormat toFloat N A r.key fmt args
  return (rv, { r with key := slot })

/-- `tnt_request_set_tuple_format`. -/
def tntRequestSetTupleFormat (N : ObjAllocator) (A : Nat → ObjAllocator) (r : PtrRequest)
    (fmt : List Char) (args : List VaArg) : Option (Int × PtrRequest) := do
  let (rv, slot) ← setFormat toFloat N A r.tuple fmt args
  return (rv, { r with tuple := slot })

variable {toFloat}

/-- What a format setter does. -/
theorem setFormat_cases {N : ObjAllocator} {A : Nat → ObjAllocator} {slot slot' : PtrSlot}
    {fmt : List Char} {args : List VaArg} {rv : Int}
    (h : setFormat toFloat N A slot fmt args = some (rv, slot')) :
    (slot.blank N = none ∧ rv = -1 ∧ slot' = slot) ∨
    ∃ o res o', slot.blank N = some o ∧ tntObjectVformat toFloat A o fmt args = some (res, o') ∧
      (res = -1 ∧ rv = -1 ∧ slot' = { slot with object := some o' } ∨
        res ≠ -1 ∧ rv = 0 ∧ slot' = ⟨pointer o', some o'⟩) := by
  unfold setFormat at h
  split at h
  · next hblank =>
    obtain ⟨rfl, rfl⟩ := Prod.mk.inj (Option.some.inj h)
    exact .inl ⟨hblank, rfl, rfl⟩
  · next o hblank =>
    simp only [bind, Option.bind_eq_some_iff] at h
    obtain ⟨⟨res, o'⟩, hformat, h⟩ := h
    refine .inr ⟨o, res, o', hblank, hformat, ?_⟩
    split at h
    · next hres =>
      obtain ⟨rfl, rfl⟩ := Prod.mk.inj (Option.some.inj h)
      exact .inl ⟨hres, rfl, rfl⟩
    · next hres =>
      obtain ⟨rfl, rfl⟩ := Prod.mk.inj (Option.some.inj h)
      exact .inr ⟨hres, rfl, rfl⟩

/-- A format that is not accepted. -/
theorem setFormat_failed {N : ObjAllocator} {A : Nat → ObjAllocator} {slot : PtrSlot}
    {fmt : List Char} {args : List VaArg} {o o' : Obj} (hblank : slot.blank N = some o)
    (h : tntObjectVformat toFloat A o fmt args = some (-1, o')) :
    setFormat toFloat N A slot fmt args = some (-1, { slot with object := some o' }) := by
  simp only [setFormat, hblank, h, bind, Option.bind_some, if_true, pure]

end Setters

/-! ## §2 — formats that are ill-formed. -/

/-- A format of the grammar: its brackets match, and between braces stands an even number of
values. -/
def WellFormed (toFloat : UInt64 → UInt32) (fmt : List Char) : Prop :=
  ∃ args vs, Formatted toFloat fmt args vs

/-- The format is refused, on a stack array of `alloc` entries: the first bracket that does not go
through is one that closes where nothing is open or an odd number of values stands in braces, or one
that opens with 128 open; and no bracket before it closes a container whose entry was lost. -/
def Refused (toFloat : UInt64 → UInt32) (alloc : Nat) (fmt : List Char) (args : List VaArg) : Prop :=
  (Track.run (formatOps toFloat fmt args) ⟨⟨[], []⟩, 0, alloc⟩).1 = .refused

instance (toFloat : UInt64 → UInt32) (alloc : Nat) (fmt : List Char) (args : List VaArg) :
    Decidable (Refused toFloat alloc fmt args) :=
  inferInstanceAs (Decidable (_ = _))

/-- The format is stored whole: it is one of the grammar with fewer than `2^32` values directly
between each pair of brackets, and every bracket goes through, none of them closing a container
whose entry was lost. -/
def Stored (toFloat : UInt64 → UInt32) (alloc : Nat) (fmt : List Char) (args : List VaArg) : Prop :=
  (Track.run (formatOps toFloat fmt args) ⟨⟨[], []⟩, 0, alloc⟩).1 = .goes ∧ NarrowFormat toFloat fmt

/-- The slot's object, if it has one, is in order: no allocation has failed so far. -/
def PtrSlot.Usable [Msgpuck] (slot : PtrSlot) : Prop :=
  ∀ o, slot.object = some o → Reached o ∧ o.s.sb.WF

/-- The size of the stack array a format meets. -/
def PtrSlot.stackAlloc (slot : PtrSlot) : Nat :=
  match slot.object with
  | none => 8
  | some o => o.stackAlloc

section Reports

variable [Msgpuck] {toFloat : UInt64 → UInt32}

/-- The object a format is encoded into is blank. -/
theorem PtrSlot.Usable.start {slot : PtrSlot} (h : slot.Usable) {N : ObjAllocator}
    (hN : N.Succeeds) :
    ∃ o, slot.blank N = some o ∧ Blank o ∧ o.stackAlloc = slot.stackAlloc := by
  unfold PtrSlot.blank PtrSlot.stackAlloc
  cases hobj : slot.object with
  | none =>
    obtain ⟨stack, hstack⟩ := hN.2 8
    refine ⟨tntObject stack, ?_, .new (N.newStack_length _ _ hstack), rfl⟩
    simp [newObject, hstack]
  | some o =>
    obtain ⟨hreached, hwf⟩ := h o hobj
    exact ⟨tntObjectReset o, rfl, .reset hreached hwf, rfl⟩

/-- A format setter fails, and stores nothing, exactly where the format is refused. -/
theorem setFormat_refused_iff {fmt : List Char} {args : List VaArg} (hm : Matches toFloat fmt 0 args)
    {slot : PtrSlot} (h : slot.Usable) :
    (∀ N A, N.Succeeds → (∀ k, (A k).Succeeds) →
      ∃ o', setFormat toFloat N A slot fmt args = some (-1, { slot with object := some o' })) ↔
      Refused toFloat slot.stackAlloc fmt args := by
  constructor
  · intro hall
    obtain ⟨o, hstart, hblank, halloc⟩ := h.start zeroingObj_succeeds
    rw [Refused, ← halloc, ← tntObjectVformat_refused_iff hm hblank]
    intro A hA
    obtain ⟨o', hset⟩ := hall zeroingObj A zeroingObj_succeeds hA
    rcases setFormat_cases hset with ⟨hnone, -⟩ | ⟨o₀, res, o₁, hblank₀, hformat, hend⟩
    · rw [hstart] at hnone
      exact absurd hnone (by simp)
    · rw [hstart] at hblank₀
      obtain rfl := Option.some.inj hblank₀
      rcases hend with ⟨rfl, -, -⟩ | ⟨-, hbad, -⟩
      · exact ⟨o₁, hformat⟩
      · exact absurd hbad (by decide)
  · intro hrefused N A hN hA
    obtain ⟨o, hstart, hblank, halloc⟩ := h.start hN
    rw [Refused, ← halloc, ← tntObjectVformat_refused_iff hm hblank] at hrefused
    obtain ⟨o', hformat⟩ := hrefused A hA
    exact ⟨o', setFormat_failed hstart hformat⟩

omit [Msgpuck] in
/-- Once it points to the object, the slot reads the object's bytes (`NULL` where there are none),
as long as the block is there. -/
theorem read_pointer_iff {o : Obj} {P : Bytes → Prop} :
    (∃ stored, PtrSlot.read ⟨pointer o, some o⟩ = some stored ∧ P (stored.getD [])) ↔
      o.s.sb.data ≠ .freed ∧ P o.bytes := by
  cases hdata : o.s.sb.data with
  | null => simp [PtrSlot.read, pointer, hdata, Obj.bytes, StreamBuf.bytes]
  | freed => simp [PtrSlot.read, pointer, hdata]
  | live mem => simp [PtrSlot.read, pointer, hdata, Obj.bytes, StreamBuf.bytes]

variable (toFloat) in
/-- What a setter stores, if it stores anything, can be read, and its headers agree with what the
format puts into the containers. -/
def Sound (fmt : List Char) (rv : Int) (slot : PtrSlot) : Prop :=
  rv ≠ -1 → ∃ stored, slot.read = some stored ∧ HeadersAgree toFloat fmt (stored.getD [])

/-- **When a format setter stores nothing whose headers disagree with its contents**: where the
format is refused, or stored whole. -/
theorem setFormat_sound_iff {fmt : List Char} {args : List VaArg} (hm : Matches toFloat fmt 0 args)
    {slot : PtrSlot} (h : slot.Usable) :
    (∀ N A, N.Succeeds → (∀ k, (A k).Succeeds) →
      ∃ rv slot', setFormat toFloat N A slot fmt args = some (rv, slot') ∧
        Sound toFloat fmt rv slot') ↔
      Refused toFloat slot.stackAlloc fmt args ∨ Stored toFloat slot.stackAlloc fmt args := by
  constructor
  · -- an allocator that never fails is enough to force the condition
    intro hall
    obtain ⟨o, hstart, hblank, halloc⟩ := h.start zeroingObj_succeeds
    rw [Refused, Stored, ← halloc, ← tntObjectVformat_agrees_iff hm hblank]
    intro A hA
    obtain ⟨rv, slot', hset, hsound⟩ := hall zeroingObj A zeroingObj_succeeds hA
    rcases setFormat_cases hset with ⟨hnone, -⟩ | ⟨o₀, res, o₁, hblank₀, hformat, hend⟩
    · rw [hstart] at hnone
      exact absurd hnone (by simp)
    · rw [hstart] at hblank₀
      -- both descriptions of the blank object are of the same one
      obtain rfl := Option.some.inj hblank₀
      refine ⟨res, o₁, hformat, fun hres => ?_⟩
      rcases hend with ⟨hbad, -⟩ | ⟨-, rfl, rfl⟩
      · exact absurd hbad hres
      · exact read_pointer_iff.mp (hsound (by decide))
  · -- and under the condition no allocator that serves its requests can break it
    intro hcond N A hN hA
    obtain ⟨o, hstart, hblank, halloc⟩ := h.start hN
    rw [Refused, Stored, ← halloc, ← tntObjectVformat_agrees_iff hm hblank] at hcond
    obtain ⟨res, o', hformat, hagree⟩ := hcond A hA
    by_cases hres : res = -1
    · subst hres
      exact ⟨-1, _, setFormat_failed hstart hformat, fun hbad => absurd rfl hbad⟩
    · refine ⟨0, ⟨pointer o', some o'⟩, ?_, fun _ => read_pointer_iff.mpr (hagree hres)⟩
      simp only [setFormat, hstart, hformat, bind, Option.bind_some, if_neg hres, pure]

/-- **When a format setter does what is expected of it**: it reports every format that is
ill-formed, and stores nothing whose headers disagree with its contents. -/
theorem setFormat_reports_iff {fmt : List Char} {args : List VaArg} (hm : Matches toFloat fmt 0 args)
    {slot : PtrSlot} (h : slot.Usable) :
    ((¬ WellFormed toFloat fmt → ∀ N A, N.Succeeds → (∀ k, (A k).Succeeds) →
        ∃ o', setFormat toFloat N A slot fmt args = some (-1, { slot with object := some o' })) ∧
      (∀ N A, N.Succeeds → (∀ k, (A k).Succeeds) →
        ∃ rv slot', setFormat toFloat N A slot fmt args = some (rv, slot') ∧
          Sound toFloat fmt rv slot')) ↔
      Refused toFloat slot.stackAlloc fmt args ∨ Stored toFloat slot.stackAlloc fmt args := by
  rw [setFormat_sound_iff hm h, setFormat_refused_iff hm h]
  refine ⟨And.right, fun hcond => ⟨fun hill => ?_, hcond⟩⟩
  rcases hcond with hrefused | ⟨-, args', vs, hitems, -⟩
  · exact hrefused
  · exact absurd ⟨args', vs, hitems⟩ hill

/-- A setter of the request is a setter of its slot. -/
theorem tntRequestSetKeyFormat_iff {N : ObjAllocator} {A : Nat → ObjAllocator} {r : PtrRequest}
    {fmt : List Char} {args : List VaArg} {rv : Int} {slot : PtrSlot} :
    tntRequestSetKeyFormat toFloat N A r fmt args = some (rv, { r with key := slot }) ↔
      setFormat toFloat N A r.key fmt args = some (rv, slot) := by
  cases hset : setFormat toFloat N A r.key fmt args with
  | none => simp [tntRequestSetKeyFormat, hset]
  | some p => simp [tntRequestSetKeyFormat, hset, Prod.ext_iff]

/-- The other setter differs in its slot only, which is why everything below is said of `setFormat`.
-/
theorem tntRequestSetTupleFormat_iff {N : ObjAllocator} {A : Nat → ObjAllocator} {r : PtrRequest}
    {fmt : List Char} {args : List VaArg} {rv : Int} {slot : PtrSlot} :
    tntRequestSetTupleFormat toFloat N A r fmt args = some (rv, { r with tuple := slot }) ↔
      setFormat toFloat N A r.tuple fmt args = some (rv, slot) := by
  cases hset : setFormat toFloat N A r.tuple fmt args with
  | none => simp [tntRequestSetTupleFormat, hset]
  | some p => simp [tntRequestSetTupleFormat, hset, Prod.ext_iff]

/-- **Which formats the setters deal with as they should.**  With matching arguments and allocation
succeeding, an ill-formed format makes `tnt_object_vformat` on a blank object return `-1` exactly if
it is refused.  The two setters return `-1` for every ill-formed format, leaving the key (the tuple)
where it points, and store no headers that disagree with their contents, exactly if the format is
refused or stored whole.  The conditions are about the format and its arguments alone: whether a
bracket is refused depends on the containers that are open, and whether a header fits on how many
values stand directly in one.  Ill-formed formats that meet neither are accepted and stored, with
headers that announce other numbers of elements than there are. -/
theorem tntRequestSetFormat_reports_iff {fmt : List Char} {args : List VaArg}
    (hm : Matches toFloat fmt 0 args) :
    (∀ o, Blank o →
      ((¬ WellFormed toFloat fmt → ∀ A : Nat → ObjAllocator, (∀ k, (A k).Succeeds) →
          ∃ o', tntObjectVformat toFloat A o fmt args = some (-1, o')) ↔
        WellFormed toFloat fmt ∨ Refused toFloat o.stackAlloc fmt args)) ∧
    ∀ r : PtrRequest,
      (r.key.Usable →
        ((¬ WellFormed toFloat fmt → ∀ N A, N.Succeeds → (∀ k, (A k).Succeeds) →
            ∃ o', tntRequestSetKeyFormat toFloat N A r fmt args =
              some (-1, { r with key := { r.key with object := some o' } })) ∧
          (∀ N A, N.Succeeds → (∀ k, (A k).Succeeds) →
            ∃ rv key, tntRequestSetKeyFormat toFloat N A r fmt args =
              some (rv, { r with key := key }) ∧ Sound toFloat fmt rv key) ↔
          Refused toFloat r.key.stackAlloc fmt args ∨ Stored toFloat r.key.stackAlloc fmt args)) ∧
      (r.tuple.Usable →
        ((¬ WellFormed toFloat fmt → ∀ N A, N.Succeeds → (∀ k, (A k).Succeeds) →
            ∃ o', tntRequestSetTupleFormat toFloat N A r fmt args =
              some (-1, { r with tuple := { r.tuple with object := some o' } })) ∧
          (∀ N A, N.Succeeds → (∀ k, (A k).Succeeds) →
            ∃ rv tuple, tntRequestSetTupleFormat toFloat N A r fmt args =
              some (rv, { r with tuple := tuple }) ∧ Sound toFloat fmt rv tuple) ↔
          Refused toFloat r.tuple.stackAlloc fmt args ∨
            Stored toFloat r.tuple.stackAlloc fmt args)) := by
  refine ⟨fun o ho => ?_, fun r => ⟨fun hkey => ?_, fun htuple => ?_⟩⟩
  · -- a well-formed format has nothing to report
    rw [tntObjectVformat_refused_iff hm ho, or_iff_not_imp_left]
    rfl
  · simp only [tntRequestSetKeyFormat_iff]
    exact setFormat_reports_iff hm hkey
  · simp only [tntRequestSetTupleFormat_iff]
    exact setFormat_reports_iff hm htuple

end Reports

/-- What starts with an opening bracket goes on to the bracket that closes it. -/
theorem WellFormed.closes {toFloat : UInt64 → UInt32} {f : List Char}
    (h : WellFormed toFloat ('[' :: f)) : ']' ∈ f := by
  obtain ⟨args, vs, hitems⟩ := h
  rcases hitems.head with hstop | hignored | hother | ⟨-, hclose⟩ | ⟨hmap, -⟩
  · exact absurd hstop (by simp)
  · exact absurd hignored.1 (by simp)
  · exact absurd hother (by decide)
  · exact hclose
  · exact absurd hmap (by decide)

/-- Nothing starts with a closing bracket. -/
theorem not_wellFormed_closing {toFloat : UInt64 → UInt32} (f : List Char) :
    ¬ WellFormed toFloat (']' :: f) := by
  rintro ⟨args, vs, hitems⟩
  rcases hitems.head with hstop | hignored | hother | ⟨harray, -⟩ | ⟨hmap, -⟩
  · exact absurd hstop (by simp)
  · exact absurd hignored.1 (by simp)
  · exact absurd hother (by decide)
  · exact absurd harray (by decide)
  · exact absurd hmap (by decide)

/-- `]` is ill-formed, and reported. -/
theorem tntRequestSetFormat_reports_closing :
    ∃ o', @tntRequestSetKeyFormat Msgpuck.reference (fun _ => 0) zeroingObj (fun _ => zeroingObj)
        (.new .select) [']'] [] =
      some (-1, { PtrRequest.new .select with key := ⟨.null, some o'⟩ }) := by
  let _ := Msgpuck.reference
  have hm : Matches (fun _ => 0) [']'] 0 [] := ⟨_, _, _, rfl, trivial⟩
  have hnew : (PtrRequest.new .select).key.Usable := by
    intro o ho
    exact absurd ho (by simp [PtrRequest.new])
  have hiff := ((tntRequestSetFormat_reports_iff hm).2 (.new .select)).1 hnew
  exact (hiff.mpr (.inl (by decide))).1 (not_wellFormed_closing []) zeroingObj _ zeroingObj_succeeds
    fun _ => zeroingObj_succeeds

/-- `%d` in `n` pairs of brackets. -/
def nested (n : Nat) (f : List Char) : List Char :=
  List.replicate n '[' ++ '%' :: 'd' :: (List.replicate n ']' ++ f)

/-- Whatever the depth, that is a format of the grammar. -/
theorem nested_items {toFloat : UInt64 → UInt32} (n : Nat) (f : List Char) :
    ∃ v, Items toFloat (nested n f) [.int 5] [v] f [] := by
  induction n generalizing f with
  | zero =>
    have hfive : Specifier toFloat ['d'] [.int 5] (integer 5) := .int (by simp) 5
    exact ⟨_, .value hfive (.stop f [])⟩
  | succ n ih =>
    obtain ⟨v, hinner⟩ := ih (']' :: f)
    refine ⟨.array [v], ?_⟩
    have hsplit : nested (n + 1) f = '[' :: nested n (']' :: f) := by
      -- the first bracket of all, and the last one of the closing ones
      rw [nested, nested, List.replicate_succ, List.replicate_succ']
      simp
    rw [hsplit]
    exact .array hinner (.stop f [])

/-- A container in brackets is a member of what it stands in: no empty array says so. -/
theorem not_headersAgree_empty {toFloat : UInt64 → UInt32} (f : List Char) (bytes : Bytes) :
    ¬ HeadersAgree toFloat ('[' :: '[' :: f) (0x90 :: bytes) := by
  rintro ⟨as, vs, ws, hitems, hskel, hencodes⟩
  have hempty : Encodes (.array []) [0x90] := .array (l := .fix 0) (by decide) ⟨rfl, rfl⟩ .nil
  cases ws with
  | nil => cases hencodes
  | cons w ws =>
    obtain ⟨b, c, hbytes, hw, -⟩ := hencodes.cons_cases
    obtain ⟨rfl, -, -⟩ := hempty.unique hw (r := bytes) hbytes
    rcases hitems.array_cases with ⟨rfl, -⟩ | ⟨xs, vs, f₁, as₁, rfl, hx⟩
    · exact absurd hskel (by simp [skeletonAll])
    · -- the array described first is empty as well, but the second bracket is in it
      have hxs : [] = skeletonAll xs := Value.array.inj (List.cons.inj hskel).1
      rcases hx.array_cases with ⟨-, hclose⟩ | ⟨ys, xs, f₂, as₂, rfl, -⟩
      · exact absurd (List.cons.inj hclose).1 (by decide)
      · exact absurd hxs (by simp [skeletonAll])

/-- `[%d` with 5 is ill-formed; it is accepted, and the key stored is an empty array with a 5 behind
it.  And `%d` in nine pairs of brackets is well-formed; the ninth bracket replaces the stack array,
and the key stored is eight empty arrays with a `[5]` behind them. -/
theorem tntRequestSetFormat_unclosed :
    (¬ WellFormed (fun _ => 0) ['[', '%', 'd'] ∧ Matches (fun _ => 0) ['[', '%', 'd'] 0 [.int 5] ∧
      ∃ r', @tntRequestSetKeyFormat Msgpuck.reference (fun _ => 0) zeroingObj (fun _ => zeroingObj)
          (.new .select) ['[', '%', 'd'] [.int 5] = some (0, r') ∧
        r'.key.read = some (some [0x90, 0x05])) ∧
    WellFormed (fun _ => 0) (nested 9 []) ∧ Matches (fun _ => 0) (nested 9 []) 0 [.int 5] ∧
      ∃ r' bytes, @tntRequestSetKeyFormat Msgpuck.reference (fun _ => 0) zeroingObj
          (fun _ => zeroingObj) (.new .select) (nested 9 []) [.int 5] = some (0, r') ∧
        r'.key.read = some (some bytes) ∧ bytes = List.replicate 8 0x90 ++ [0x91, 0x05] ∧
        ¬ HeadersAgree (fun _ => 0) (nested 9 []) bytes := by
  refine ⟨⟨?_, ?_, _, rfl, by decide⟩, ?_, ?_, _, _, rfl, rfl, by decide, ?_⟩
  · intro h
    exact absurd h.closes (by decide)
  · exact ⟨_, _, _, rfl, _, _, _, rfl, trivial⟩
  · obtain ⟨v, hitems⟩ := @nested_items (fun _ => 0) 9 []
    exact ⟨_, _, hitems⟩
  · obtain ⟨calls, left, hcalls⟩ : ∃ calls left,
      formatCalls (fun _ => 0) (nested 9 []) 0 [.int 5] = some (calls, left) := ⟨_, _, rfl⟩
    exact formatCalls_matches.mp ⟨calls, left, hcalls⟩
  · exact not_headersAgree_empty _ _

end TarantoolC.Request
