/-
# TarantoolC.Request.Keep — a format setter that fails.

The key of a request is a pointer into the object the setter uses, and the setter encodes the new
format into that object before it knows whether it is accepted.  So a failed call may leave a key
that reads other bytes, or none at all.  `tntRequestSetFormat_keeps` says when it does not: the key
is not in that block, or everything that can be there at a failure agrees with it.

The condition has two halves because there are two ways to lose a key.  The block may be moved or
released by the format's own growth, which is up to the allocator; and the bytes in it may be
overwritten by what was encoded before the failure, which is up to the format.  `PtrSlot.Spared`
covers both: it asks that every state the format can leave behind at a failure reads the old bytes.
A format that closes a container whose entry was lost (`PtrSlot.Astray`) writes into a header at an
offset that means nothing any more, and of such a format only the one direction is stated.
-/
import TarantoolC.Object.Overwrite
import TarantoolC.Request.Format

namespace TarantoolC.Request

open MsgPack Msgpuck Proto Object

/-! ## §1 — slots of a request. -/

section Reach

variable [Msgpuck] (toFloat : UInt64 → UInt32)

/-- What the setters make of a slot: those that take the caller's memory and the one that takes a
format, whatever the allocator answers. -/
inductive PtrSlot.Reached : PtrSlot → Prop
  | new : Reached ⟨.null, none⟩
  | unset {slot : PtrSlot} (h : Reached slot) : Reached { slot with ptr := .null }
  | user {slot : PtrSlot} (h : Reached slot) (bytes : Bytes) :
      Reached { slot with ptr := .user bytes }
  | format {slot slot' : PtrSlot} {N : ObjAllocator} {A : Nat → ObjAllocator} {fmt : List Char}
      {args : List VaArg} {rv : Int} (h : Reached slot)
      (hset : setFormat toFloat N A slot fmt args = some (rv, slot')) : Reached slot'

variable {toFloat}

/-- A failed setter leaves the pointer where it was. -/
theorem setFormat_ptr {N : ObjAllocator} {A : Nat → ObjAllocator} {slot slot' : PtrSlot}
    {fmt : List Char} {args : List VaArg}
    (h : setFormat toFloat N A slot fmt args = some (-1, slot')) : slot'.ptr = slot.ptr := by
  rcases setFormat_cases h with ⟨-, -, rfl⟩ | ⟨o, res, o', -, -, ⟨-, -, rfl⟩ | ⟨-, hbad, -⟩⟩
  · rfl
  · rfl
  · exact absurd hbad (by decide)

/-- A format leads to an object that is reached, with a buffer of its own. -/
theorem tntObjectVformat_reached {A : Nat → ObjAllocator} {o o' : Obj} {fmt : List Char}
    {args : List VaArg} {res : Int} (ho : Object.Reached o) (hfix : o.s.sb.fixed = false)
    (h : tntObjectVformat toFloat A o fmt args = some (res, o')) :
    Object.Reached o' ∧ o'.s.sb.fixed = false := by
  obtain ⟨rc, o₁, htype⟩ : ∃ rc o₁, tntObjectType o .packed = (rc, o₁) := ⟨_, _, rfl⟩
  have hreached : Object.Reached o₁ :=
    ho.call (A := zeroingObj) (c := .setType .packed) (congrArg some htype)
  have hfix₁ : o₁.s.sb.fixed = false := by
    rcases Object.tntObjectType_cases htype with ⟨-, rfl⟩ | ⟨-, rfl⟩
    · exact hfix
    · exact hfix
  simp only [tntObjectVformat, htype] at h
  split at h
  · obtain ⟨-, rfl⟩ := Prod.mk.inj (Option.some.inj h)
    exact ⟨hreached, hfix₁⟩
  · exact vformatLoop_reached hreached hfix₁ h

/-- **The object of a slot** is one that calls lead to, with a buffer of its own. -/
theorem PtrSlot.Reached.object {slot : PtrSlot} (h : slot.Reached toFloat) {o : Obj}
    (ho : slot.object = some o) : Object.Reached o ∧ o.s.sb.fixed = false := by
  induction h generalizing o with
  | new => exact absurd ho (by simp)
  | unset _ ih => exact ih ho
  | user _ _ ih => exact ih ho
  | @format slot slot' N A fmt args rv _ hset ih =>
    -- the object the format went into was reset, or new
    have hblank : ∀ o₀, slot.blank N = some o₀ → Object.Reached o₀ ∧ o₀.s.sb.fixed = false := by
      intro o₀ hblank
      unfold PtrSlot.blank at hblank
      cases hobj : slot.object with
      | none =>
        rw [hobj] at hblank
        obtain ⟨stack, hstack, rfl⟩ := Option.map_eq_some_iff.mp hblank
        exact ⟨.new (N.newStack_length _ _ hstack), rfl⟩
      | some o₁ =>
        rw [hobj] at hblank
        obtain rfl := Option.some.inj hblank
        obtain ⟨hreached, hfix⟩ := ih hobj
        exact ⟨hreached.call (A := zeroingObj) (c := .reset) rfl, hfix⟩
    rcases setFormat_cases hset with ⟨-, -, rfl⟩ | ⟨o₀, res, o₁, hstart, hformat, hend⟩
    · exact ih ho
    · obtain ⟨hreached, hfix⟩ := hblank o₀ hstart
      have hobj : slot'.object = some o₁ := by
        rcases hend with ⟨-, -, rfl⟩ | ⟨-, -, rfl⟩
        · rfl
        · rfl
      rw [hobj] at ho
      obtain rfl := Option.some.inj ho
      exact tntObjectVformat_reached hreached hfix hformat

end Reach

/-! ## §2 — old keys. -/

/-- Where the setter fails, the slot still reads what it reads: the pointer leads elsewhere, or the
bytes are spared. -/
def PtrSlot.Spared (toFloat : UInt64 → UInt32) (slot : PtrSlot) (fmt : List Char)
    (args : List VaArg) : Prop :=
  match slot.ptr, slot.object, slot.read with
  | .block alloc _, some o, some (some key) =>
    Object.Spared alloc key (formatOps toFloat fmt args) ⟨⟨[], []⟩, 0, o.stackAlloc⟩
  | _, _, _ => True

/-- The format closes a container whose entry was lost with an old stack array. -/
def PtrSlot.Astray (toFloat : UInt64 → UInt32) (slot : PtrSlot) (fmt : List Char)
    (args : List VaArg) : Prop :=
  (Track.run (formatOps toFloat fmt args) ⟨⟨[], []⟩, 0, slot.stackAlloc⟩).1 = .astray

section Keep

variable [Msgpuck] {toFloat : UInt64 → UInt32}

/-- A setter over an object in order fails where a call of the format does. -/
theorem setFormat_fails_iff {N : ObjAllocator} {A : Nat → ObjAllocator} {slot slot' : PtrSlot}
    {fmt : List Char} {args : List VaArg} {o : Obj} (hobj : slot.object = some o)
    (ho : Reached o) (hwf : o.s.sb.WF) :
    setFormat toFloat N A slot fmt args = some (-1, slot') ↔
      ∃ o', slot' = { slot with object := some o' } ∧
        runFormat A (scanned toFloat fmt 0 args) 0 0 { tntObjectReset o with type := .packed } =
          some (-1, o') := by
  obtain ⟨htype, htracks⟩ := (Blank.reset ho hwf).tracks
  -- the object of the slot is reset first: the format starts on a blank one
  have hformat : ∀ res o', tntObjectVformat toFloat A (tntObjectReset o) fmt args = some (res, o') ↔
      vformatLoop toFloat A fmt 0 args 0 0 { tntObjectReset o with type := .packed } =
        some (res, o') := by
    intro res o'
    simp only [tntObjectVformat, htype, show ¬ (0 : Int) = -1 by decide, if_false]
  have hloop : ∀ o', vformatLoop toFloat A fmt 0 args 0 0 { tntObjectReset o with type := .packed } =
        some (-1, o') ↔
      runFormat A (scanned toFloat fmt 0 args) 0 0 { tntObjectReset o with type := .packed } =
        some (-1, o') := fun o' => vformatLoop_refused_iff A 0 (Int.le_refl 0) htracks.sane
  have hblank : slot.blank N = some (tntObjectReset o) := by
    rw [PtrSlot.blank, hobj]
  constructor
  · intro h
    rcases setFormat_cases h with ⟨hnone, -⟩ | ⟨o₀, res, o', hstart, hres, hend⟩
    · rw [hblank] at hnone
      exact absurd hnone (by simp)
    · rw [hblank] at hstart
      obtain rfl := Option.some.inj hstart
      rcases hend with ⟨rfl, -, rfl⟩ | ⟨-, hbad, -⟩
      · exact ⟨o', rfl, (hloop o').mp ((hformat _ _).mp hres)⟩
      · exact absurd hbad (by decide)
  · rintro ⟨o', rfl, hrun⟩
    exact setFormat_failed hblank ((hformat _ _).mpr ((hloop o').mpr hrun))

omit [Msgpuck] in
/-- A pointer into a block that can be read: there is an object, and it is its block. -/
theorem read_block {alloc len : Nat} {object : Option Obj}
    (h : PtrSlot.read ⟨.block alloc len, object⟩ ≠ none) :
    ∃ o, object = some o ∧ ∃ old, o.s.sb.data = .live old ∧ o.s.sb.alloc = alloc := by
  cases object with
  | none => exact absurd rfl h
  | some o =>
    refine ⟨o, rfl, ?_⟩
    cases hdata : o.s.sb.data with
    | null => simp [PtrSlot.read, hdata] at h
    | freed => simp [PtrSlot.read, hdata] at h
    | live old =>
      refine ⟨old, rfl, ?_⟩
      by_contra hne
      simp [PtrSlot.read, hdata, hne] at h

/-- An object whose block is there is in order, and the block has the length the object knows. -/
theorem wf_of_live {o : Obj} (h : Object.Reached o) (hfix : o.s.sb.fixed = false) {old : Bytes}
    (hlive : o.s.sb.data = .live old) : o.s.sb.WF ∧ o.s.sb.alloc = old.length := by
  have hwf : o.s.sb.WF := by
    rcases h.sane.buf with hbad | ⟨-, hfreed⟩ | hwf
    · rw [hfix] at hbad
      exact absurd hbad (by decide)
    · rw [hfreed] at hlive
      exact absurd hlive (by simp)
    · exact hwf
  refine ⟨hwf, ?_⟩
  rcases hwf.block with ⟨hnull, -⟩ | ⟨mem, hmem, hlen⟩
  · rw [hnull] at hlive
    exact absurd hlive (by simp)
  · rw [hlive] at hmem
    obtain rfl := Block.live.inj hmem
    exact hlen.symm

/-- **When a failed format setter keeps the old bytes.**  They are kept, whatever the allocator
answers, if they are spared; and, for a format that does not go astray, only then. -/
theorem setFormat_keeps {slot : PtrSlot} (h : slot.Reached toFloat) (hread : slot.read ≠ none)
    (fmt : List Char) (args : List VaArg) :
    (slot.Spared toFloat fmt args → ∀ N A slot',
      setFormat toFloat N A slot fmt args = some (-1, slot') → slot'.read = slot.read) ∧
    (¬ slot.Astray toFloat fmt args → (∀ N A slot',
      setFormat toFloat N A slot fmt args = some (-1, slot') → slot'.read = slot.read) →
        slot.Spared toFloat fmt args) := by
  obtain ⟨ptr, object⟩ := slot
  cases ptr with
  | null =>
    refine ⟨?_, fun _ _ => trivial⟩
    intro _ N A slot' hset
    have hptr := setFormat_ptr hset
    rw [PtrSlot.read, hptr]
    rfl
  | user bytes =>
    refine ⟨?_, fun _ _ => trivial⟩
    intro _ N A slot' hset
    have hptr := setFormat_ptr hset
    rw [PtrSlot.read, hptr]
    rfl
  | block alloc len =>
    obtain ⟨o, rfl, old, hlive, rfl⟩ := read_block hread
    obtain ⟨hreached, hfix⟩ := h.object rfl
    obtain ⟨hwf, hlen⟩ := wf_of_live hreached hfix hlive
    have hold : PtrSlot.read ⟨.block o.s.sb.alloc len, some o⟩ = some (some (old.take len)) := by
      simp [PtrSlot.read, hlive]
    have hspared : PtrSlot.Spared toFloat ⟨.block o.s.sb.alloc len, some o⟩ fmt args =
        Object.Spared old.length (old.take len) (formatOps toFloat fmt args)
          ⟨⟨[], []⟩, 0, o.stackAlloc⟩ := by
      rw [PtrSlot.Spared, hold, ← hlen]
    obtain ⟨-, htracks⟩ := (Blank.reset hreached hwf).tracks
    have hin : Obj.Within { tntObjectReset o with type := .packed } old :=
      ⟨hlen, Nat.zero_le _, old, hlive, rfl, rfl⟩
    have hp := @scanned_performs toFloat fmt 0 args
    -- what the slot reads when the call has failed
    have hnew : ∀ o' : Obj, o'.Within old →
        (PtrSlot.read ⟨.block o.s.sb.alloc len, some o'⟩ = some (some (old.take len)) ↔
          Agree o'.bytes (old.take len)) := by
      intro o' hin'
      obtain ⟨mem, hmem, -, -⟩ := hin'.block
      rw [← hin'.take_iff hmem]
      simp [PtrSlot.read, hmem, hin'.alloc, hlen]
    refine ⟨?_, ?_⟩
    · intro hs N A slot' hset
      rw [hspared] at hs
      obtain ⟨o', rfl, hrun⟩ := (setFormat_fails_iff rfl hreached hwf).mp hset
      obtain ⟨hin', hagree⟩ := runFormat_spared hp A htracks hin hs 0 (Int.le_refl 0) hrun
      rw [hold]
      exact (hnew o' hin').mpr hagree
    · intro hastray hall
      rw [hspared]
      by_contra hs
      obtain ⟨m, bad, o', -, hrun, hspoiled⟩ := runFormat_spoils hp htracks hin hs hastray 0 0
      have hkept := hall zeroingObj _ _
        ((setFormat_fails_iff rfl hreached hwf).mpr ⟨o', rfl, hrun⟩)
      rw [hold] at hkept
      rcases hspoiled with hfreed | ⟨hin', hdiffer⟩
      · simp [PtrSlot.read, hfreed] at hkept
      · exact hdiffer ((hnew o' hin').mp hkept)

omit [Msgpuck] in
/-- The request is as before, where its slot reads as before. -/
theorem PtrRequest.load_key {r : PtrRequest} {slot : PtrSlot} (h : slot.read = r.key.read) :
    PtrRequest.load { r with key := slot } = r.load := by
  rw [PtrRequest.load, PtrRequest.load, h]

omit [Msgpuck] in
/-- A tuple that reads the same is compiled the same. -/
theorem PtrRequest.load_tuple {r : PtrRequest} {slot : PtrSlot} (h : slot.read = r.tuple.read) :
    PtrRequest.load { r with tuple := slot } = r.load := by
  rw [PtrRequest.load, PtrRequest.load, h]

variable (toFloat) in
/-- A key that was set survives a failed `tnt_request_set_key_format`, and the request that is
compiled is the same. -/
def KeepsKey (r : PtrRequest) (fmt : List Char) (args : List VaArg) : Prop :=
  ∀ N A r', tntRequestSetKeyFormat toFloat N A r fmt args = some (-1, r') →
    r'.key.read = r.key.read ∧ r'.load = r.load

variable (toFloat) in
/-- ... and a tuple a failed `tnt_request_set_tuple_format`. -/
def KeepsTuple (r : PtrRequest) (fmt : List Char) (args : List VaArg) : Prop :=
  ∀ N A r', tntRequestSetTupleFormat toFloat N A r fmt args = some (-1, r') →
    r'.tuple.read = r.tuple.read ∧ r'.load = r.load

/-- Only calls that fail matter, and of these only what the key reads, ... -/
theorem keepsKey_iff {r : PtrRequest} {fmt : List Char} {args : List VaArg} :
    KeepsKey toFloat r fmt args ↔ ∀ N A slot,
      setFormat toFloat N A r.key fmt args = some (-1, slot) → slot.read = r.key.read := by
  constructor
  · intro h N A slot hset
    exact (h N A _ (tntRequestSetKeyFormat_iff.mpr hset)).1
  · intro h N A r' hset
    simp only [tntRequestSetKeyFormat, bind, Option.bind_eq_some_iff] at hset
    obtain ⟨⟨rv, slot⟩, hslot, hset⟩ := hset
    obtain ⟨rfl, rfl⟩ := Prod.mk.inj (Option.some.inj hset)
    have hread := h N A slot hslot
    exact ⟨hread, PtrRequest.load_key hread⟩

/-- ... or the tuple. -/
theorem keepsTuple_iff {r : PtrRequest} {fmt : List Char} {args : List VaArg} :
    KeepsTuple toFloat r fmt args ↔ ∀ N A slot,
      setFormat toFloat N A r.tuple fmt args = some (-1, slot) → slot.read = r.tuple.read := by
  constructor
  · intro h N A slot hset
    exact (h N A _ (tntRequestSetTupleFormat_iff.mpr hset)).1
  · intro h N A r' hset
    simp only [tntRequestSetTupleFormat, bind, Option.bind_eq_some_iff] at hset
    obtain ⟨⟨rv, slot⟩, hslot, hset⟩ := hset
    obtain ⟨rfl, rfl⟩ := Prod.mk.inj (Option.some.inj hset)
    have hread := h N A slot hslot
    exact ⟨hread, PtrRequest.load_tuple hread⟩

/-- **When a failed format setter keeps the key, or the tuple.**  For every request the setters lead
to, whose key (tuple) can be read: what it reads is the same after every failure of the setter if it
is spared; and, for a format that does not go astray, only then.  A setter writes into the block its
key points to before it knows whether it will fail, and a failure puts nothing back.  A key
elsewhere is not concerned, and a key in the block is spared if what the format has written by then
is what was there. -/
theorem tntRequestSetFormat_keeps (r : PtrRequest) (fmt : List Char) (args : List VaArg) :
    (r.key.Reached toFloat → r.key.read ≠ none →
      (r.key.Spared toFloat fmt args → KeepsKey toFloat r fmt args) ∧
      (¬ r.key.Astray toFloat fmt args → KeepsKey toFloat r fmt args →
        r.key.Spared toFloat fmt args)) ∧
    (r.tuple.Reached toFloat → r.tuple.read ≠ none →
      (r.tuple.Spared toFloat fmt args → KeepsTuple toFloat r fmt args) ∧
      (¬ r.tuple.Astray toFloat fmt args → KeepsTuple toFloat r fmt args →
        r.tuple.Spared toFloat fmt args)) := by
  rw [keepsKey_iff, keepsTuple_iff]
  exact ⟨fun h hread => setFormat_keeps h hread fmt args,
    fun h hread => setFormat_keeps h hread fmt args⟩

end Keep

/-- A select with the key `[%d]` of 5. -/
def keyOfFive : PtrRequest where
  req := tntRequestNew .select
  key :=
    { ptr := .block 2 2
      object := some {
        s := { sb := ⟨.live [0x91, 0x05], 2, 2, 0, false⟩, wrcnt := 2, reqid := 0 }
        stack := zeroStack.set 0 ⟨0, 1, .array⟩
        stackSize := 0
        stackAlloc := 8
        type := .packed } }
  tuple := ⟨.null, none⟩

/-- The call that makes `keyOfFive`. -/
theorem keyOfFive_set :
    @tntRequestSetKeyFormat Msgpuck.reference (fun _ => 0) zeroingObj (fun _ => zeroingObj)
      (.new .select) ['[', '%', 'd', ']'] [.int 5] = some (0, keyOfFive) := rfl

/-- A format that is refused at once does not touch the key. -/
theorem tntRequestSetFormat_keeps_closing :
    ∃ r, @tntRequestSetKeyFormat Msgpuck.reference (fun _ => 0) zeroingObj (fun _ => zeroingObj)
        keyOfFive [']'] [] = some (-1, r) ∧
      r.key.read = some (some [0x91, 0x05]) := by
  let _ := Msgpuck.reference
  have hreached : keyOfFive.key.Reached (fun _ => 0) :=
    .format .new (tntRequestSetKeyFormat_iff.mp keyOfFive_set)
  have hspared : keyOfFive.key.Spared (fun _ => 0) [']'] [] :=
    ⟨fun _ => .inl List.nil_prefix, trivial⟩
  have hkeeps := ((tntRequestSetFormat_keeps keyOfFive [']'] []).1 hreached (by decide)).1 hspared
  refine ⟨_, rfl, ?_⟩
  exact (hkeeps zeroingObj (fun _ => zeroingObj) _ rfl).1

/-- `[%d]]` with 6 is refused at its last bracket, and the key `[5]` has become `[6]`. -/
theorem tntRequestSetFormat_spoils :
    @tntRequestSetKeyFormat Msgpuck.reference (fun _ => 0) zeroingObj (fun _ => zeroingObj)
        (.new .select) ['[', '%', 'd', ']'] [.int 5] = some (0, keyOfFive) ∧
      keyOfFive.key.read = some (some [0x91, 0x05]) ∧
      ∃ r, @tntRequestSetKeyFormat Msgpuck.reference (fun _ => 0) zeroingObj (fun _ => zeroingObj)
          keyOfFive ['[', '%', 'd', ']', ']'] [.int 6] = some (-1, r) ∧
        r.key.read = some (some [0x91, 0x06]) :=
  ⟨rfl, rfl, _, rfl, rfl⟩

end TarantoolC.Request
